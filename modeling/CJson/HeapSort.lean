import CJson.HeapForest
import CJson.Sort

/-!
# Sorting a list in memory

`sort_list` of `utils.rs` on the nodes themselves: it looks whether the list is
sorted, finds the middle with two pointers, cuts the list there, sorts the halves
and merges them by rewriting links.  What it does to a chain of nodes is the merge
sort of the names.  The links between the nodes come out right; the `prev` of the
first node is never written, except where the list was cut.
-/

namespace CJson

open CString

namespace Heap

/-- `compare_strings` on the names of two nodes.  As soon as one of the names is
missing the first one counts as the greater, whichever of them it is. -/
def compareNames (heap : Heap) (first second : Pointer) (caseSensitive : Bool) : Except MemoryFault Int := do
  let first ← heap.fields first
  let second ← heap.fields second
  .ok (compareStrings first.string second.string caseSensitive)

/-- The loop that tests for a sorted list: it goes on while each name is smaller than
the next one.  The comparison is strict, so the loop stops at two equal names. -/
def sortedLoop (heap : Heap) (caseSensitive : Bool) : Nat -> Pointer -> Except MemoryFault Pointer
  | 0, _ => .error .outOfFuel
  | fuel + 1, currentItem =>
      if currentItem.isNone then .ok currentItem
      else do
        let next ← heap.next currentItem
        if next.isNone then .ok currentItem
        else do
          let order ← heap.compareNames currentItem next caseSensitive
          if order < 0 then heap.sortedLoop caseSensitive fuel next else .ok currentItem

/-- The test for a sorted list: the loop has come to the last node. -/
def isSorted (fuel : Nat) (heap : Heap) (list : Pointer) (caseSensitive : Bool) : Except MemoryFault Bool := do
  let currentItem ← heap.sortedLoop caseSensitive fuel list
  if currentItem.isNone then .ok true
  else do
    let next ← heap.next currentItem
    .ok next.isNone

/-- The loop that walks two pointers to find the middle.  The one makes a step while
the other makes two, so that it is half as far when the other has come to the end. -/
def middleLoop (heap : Heap) : Nat -> Pointer -> Pointer -> Except MemoryFault Pointer
  | 0, _, _ => .error .outOfFuel
  | fuel + 1, second, currentItem =>
      if currentItem.isNone then .ok second
      else do
        let second ← heap.next second
        let currentItem ← heap.next currentItem
        -- advances current_item two steps at a time
        let currentItem ← if currentItem.isSome then heap.next currentItem else .ok currentItem
        heap.middleLoop fuel second currentItem

/-- Split the lists in front of the second one.  Its `prev` is the last node of the
first list, whose `next` is cut; a list of one node has no second one. -/
def splitList (heap : Heap) (second : Pointer) : Except MemoryFault Heap :=
  if second.isNone then .ok heap
  else do
    let prev ← heap.prev second
    if prev.isNone then .ok heap
    else do
      let heap ← heap.setNext prev none
      heap.setPrev second none

/-- What the loop that merges works on: the two lists that are left, and the result so
far with its last node. -/
structure Merging where
  heap : Heap
  first : Pointer
  second : Pointer
  result : Pointer
  resultTail : Pointer

/-- Start the merged list with the smaller element, or add it to the list.  The first
element is not linked to anything, so its `prev` stays what it was. -/
def addSmaller (heap : Heap) (result resultTail smaller : Pointer) : Except MemoryFault Heap :=
  if result.isNone then .ok heap
  else do
    let heap ← heap.setNext resultTail smaller
    heap.setPrev smaller resultTail

/-- The loop that merges the sub-lists, until one of them is used up.  An element of
the second list is taken whenever that of the first one is not strictly smaller: of
two equal names, the later one comes first. -/
def mergeLoop (caseSensitive : Bool) : Nat -> Merging -> Except MemoryFault Merging
  | 0, _ => .error .outOfFuel
  | fuel + 1, ⟨heap, first, second, result, resultTail⟩ =>
      if first.isNone ∨ second.isNone then .ok ⟨heap, first, second, result, resultTail⟩
      else do
        let order ← heap.compareNames first second caseSensitive
        let smaller := if order < 0 then first else second
        let heap ← heap.addSmaller result resultTail smaller
        let result := if result.isNone then smaller else result
        if first = smaller then do
          let first ← heap.next first
          mergeLoop caseSensitive fuel ⟨heap, first, second, result, smaller⟩
        else do
          let second ← heap.next second
          mergeLoop caseSensitive fuel ⟨heap, first, second, result, smaller⟩

/-- Append what is left of one of the sub-lists. -/
def appendRest (heap : Heap) (resultTail rest : Pointer) : Except MemoryFault Heap :=
  if rest.isNone then .ok heap
  else do
    let heap ← heap.setNext resultTail rest
    heap.setPrev rest resultTail

/-- What follows the loop: the list that is left is appended as a whole.  If nothing
has been merged, that list is the result. -/
def finishMerge (merging : Merging) : Except MemoryFault (Pointer × Heap) :=
  if merging.first.isSome ∧ merging.result.isNone then .ok (merging.first, merging.heap)
  else do
    let heap ← merging.heap.appendRest merging.resultTail merging.first
    if merging.second.isSome ∧ merging.result.isNone then .ok (merging.second, heap)
    else do
      let heap ← heap.appendRest merging.resultTail merging.second
      .ok (merging.result, heap)

/-- `sort_list`, a merge sort on the links.  A list of one node and a list that is
sorted are returned as they are; any other one is cut in the middle, and the halves
are sorted and merged.  The `prev` of the head is not kept up. -/
def sortList (caseSensitive : Bool) : Nat -> Heap -> Pointer -> Except MemoryFault (Pointer × Heap)
  | 0, _, _ => .error .outOfFuel
  | fuel + 1, heap, list =>
      if list.isNone then .ok (list, heap)
      else do
        let next ← heap.next list
        if next.isNone then
          -- one entry is sorted already
          .ok (list, heap)
        else do
          let sorted ← isSorted (fuel + 1) heap list caseSensitive
          if sorted then
            -- leave sorted lists unmodified
            .ok (list, heap)
          else do
            let second ← heap.middleLoop (fuel + 1) list list
            let heap ← heap.splitList second
            let (first, heap) ← sortList caseSensitive fuel heap list
            let (second, heap) ← sortList caseSensitive fuel heap second
            let merging ← mergeLoop caseSensitive (fuel + 1) ⟨heap, first, second, none, none⟩
            finishMerge merging

/-- `sort_object`: the list of the members is sorted, and the object points at its new
head.  The new head keeps the `prev` that the merging left it with. -/
def sortObject (fuel : Nat) (heap : Heap) (object : Pointer) (caseSensitive : Bool) :
    Except MemoryFault Heap :=
  if object.isNone then .ok heap
  else do
    let child ← heap.child object
    let (list, heap) ← sortList caseSensitive fuel heap child
    heap.setChild object list

/-- The comparison that `sort_list` steps by. -/
def smallerNode (fieldsOf : Addr -> Fields) (caseSensitive : Bool) (first second : Addr) : Bool :=
  compareStrings (fieldsOf first).string (fieldsOf second).string caseSensitive < 0

variable {heap : Heap} {nodes : List Addr} {caseSensitive : Bool} {fuel : Nat}

/-- Every node of a list may be read and written. -/
def AllLive (heap : Heap) (nodes : List Addr) : Prop := ∀ node ∈ nodes, heap.allocated node = true

theorem compareNames_eq {first second : Addr} (firstLive : heap.allocated first = true)
    (secondLive : heap.allocated second = true) :
    heap.compareNames (some first) (some second) caseSensitive = .ok
      (compareStrings (heap.fieldsOf first).string (heap.fieldsOf second).string caseSensitive) := by
  rw [compareNames, fields_eq firstLive, fields_eq secondLive]
  rfl

/-! ## The two walks -/

/-- The test finds out whether every name is smaller than the next one. -/
theorem isSorted_eq (chain : heap.links.Chain nodes none) (live : heap.AllLive nodes) (some : nodes ≠ [])
    (enough : nodes.length < fuel) : isSorted fuel heap nodes.head? caseSensitive =
      .ok (MergeSort.increasing (smallerNode heap.fieldsOf caseSensitive) nodes) := by
  induction nodes generalizing fuel with
  | nil => exact absurd rfl some
  | cons first rest ih =>
      cases fuel with
      | zero => exact absurd enough (Nat.not_lt_zero _)
      | succ fuel =>
          have firstLive := live first List.mem_cons_self
          have next := chain.next_first
          rw [List.head?_cons, isSorted, sortedLoop, Option.isNone_some, if_neg Bool.false_ne_true,
            next_eq firstLive, Except.ok_bind, next]
          cases rest with
          | nil =>
              rw [List.head?_nil, Option.isNone_none, if_pos rfl, Except.ok_bind, Option.isNone_some,
                if_neg Bool.false_ne_true, next_eq firstLive, Except.ok_bind, next]
              rfl
          | cons second rest =>
              have secondLive := live second (List.mem_cons_of_mem _ List.mem_cons_self)
              rw [List.head?_cons, Option.isNone_some, if_neg Bool.false_ne_true,
                compareNames_eq firstLive secondLive, Except.ok_bind, MergeSort.increasing]
              by_cases smaller : compareStrings (heap.fieldsOf first).string (heap.fieldsOf second).string
                  caseSensitive < 0
              · rw [if_pos smaller, smallerNode, decide_eq_true smaller, Bool.true_and]
                exact ih chain.tail (fun node inside => live node (List.mem_cons_of_mem _ inside))
                  (List.cons_ne_nil _ _) (Nat.lt_of_succ_lt_succ enough)
              · rw [if_neg smaller, Except.ok_bind, Option.isNone_some, if_neg Bool.false_ne_true,
                  next_eq firstLive, Except.ok_bind, next, smallerNode, decide_eq_false smaller]
                rfl

/-- The second pointer stops behind the first half, which is the longer one if the
length is odd.  The induction is on the list in front of the faster pointer. -/
theorem middleLoop_eq {ahead : List Addr} (chain : heap.links.Chain nodes none) (live : heap.AllLive nodes)
    (aheadChain : heap.links.Chain ahead none) (aheadLive : heap.AllLive ahead)
    (behind : ahead.length ≤ nodes.length) (enough : ahead.length < fuel) :
    heap.middleLoop fuel nodes.head? ahead.head? = .ok (nodes.drop ((ahead.length + 1) / 2)).head? := by
  induction fuel generalizing nodes ahead with
  | zero => exact absurd enough (Nat.not_lt_zero _)
  | succ fuel ih =>
      rcases ahead with _ | ⟨current, ahead⟩
      · rfl
      rcases nodes with _ | ⟨second, nodes⟩
      · exact absurd behind (Nat.not_succ_le_zero _)
      rw [List.length_cons] at enough
      rw [List.length_cons, List.length_cons] at behind
      have liveRest : heap.AllLive nodes := fun node inside => live node (List.mem_cons_of_mem _ inside)
      rw [List.head?_cons, List.head?_cons, middleLoop, Option.isNone_some, if_neg Bool.false_ne_true,
        next_eq (live second List.mem_cons_self), Except.ok_bind, next_eq (aheadLive current List.mem_cons_self),
        Except.ok_bind, chain.next_first, aheadChain.next_first]
      rcases ahead with _ | ⟨other, ahead⟩
      · have ended := @ih nodes [] chain.tail liveRest Links.chain_nil (fun _ impossible => nomatch impossible)
          (Nat.zero_le _) (by rw [List.length_nil] at enough ⊢; omega)
        rw [List.head?_nil, Option.isSome_none, if_neg Bool.false_ne_true, Except.ok_bind, List.length_singleton,
          List.drop_succ_cons]
        exact ended
      · have otherLive := aheadLive other (List.mem_cons_of_mem _ List.mem_cons_self)
        rw [List.length_cons] at enough behind
        rw [List.head?_cons, Option.isSome_some, if_pos rfl, next_eq otherLive, Except.ok_bind,
          aheadChain.tail.next_first]
        dsimp only
        rw [ih chain.tail liveRest aheadChain.tail.tail
            (fun node inside => aheadLive node (List.mem_cons_of_mem _ (List.mem_cons_of_mem _ inside)))
            (by omega) (by omega), List.length_cons, List.length_cons,
          show (ahead.length + 1 + 1 + 1) / 2 = (ahead.length + 1) / 2 + 1 by omega, List.drop_succ_cons]

/-! ## Merging -/

theorem addSmaller_eq {out : List Addr} {node : Addr} (outLive : heap.AllLive out)
    (nodeLive : heap.allocated node = true) :
    heap.addSmaller out.head? out.getLast? (some node) =
      .ok (heap.withLinks (heap.links.extend out.getLast? node)) := by
  rcases List.eq_nil_or_concat out with rfl | ⟨before, last, rfl⟩
  · rfl
  · rw [List.concat_eq_append] at outLive ⊢
    have lastLive := outLive last (List.mem_append_right _ List.mem_cons_self)
    have started : (before ++ [last]).head?.isNone = false := by
      cases before <;> rfl
    rw [addSmaller, started, if_neg Bool.false_ne_true, List.getLast?_concat, setNext_eq lastLive, Except.ok_bind]
    exact @setPrev_eq (heap.withLinks (heap.links.setNext last (some node))) node nodeLive (some last)

/-- One round of the loop puts the smaller of the two first nodes behind the result.
The link from the last node of the result is set even if it was there already; of two
equal names the second one is taken. -/
theorem mergeLoop_round {out first second : List Addr} {left right : Addr}
    (outLive : heap.AllLive out) (leftLive : heap.allocated left = true) (rightLive : heap.allocated right = true)
    (firstNext : (heap.links.extend out.getLast? left).next left = first.head?)
    (secondNext : (heap.links.extend out.getLast? right).next right = second.head?) (different : left ≠ right) :
    mergeLoop caseSensitive (fuel + 1) ⟨heap, some left, some right, out.head?, out.getLast?⟩ =
      if smallerNode heap.fieldsOf caseSensitive left right then
        mergeLoop caseSensitive fuel ⟨heap.withLinks (heap.links.extend out.getLast? left), first.head?, some right,
          (out ++ [left]).head?, (out ++ [left]).getLast?⟩
      else
        mergeLoop caseSensitive fuel ⟨heap.withLinks (heap.links.extend out.getLast? right), some left, second.head?,
          (out ++ [right]).head?, (out ++ [right]).getLast?⟩ := by
  have heads : ∀ node, (if out.head?.isNone = true then some node else out.head?) = (out ++ [node]).head? := by
    intro node
    cases out <;> rfl
  rw [mergeLoop, if_neg (by simp), compareNames_eq leftLive rightLive, Except.ok_bind]
  dsimp only
  by_cases smaller : compareStrings (heap.fieldsOf left).string (heap.fieldsOf right).string caseSensitive < 0
  · have leftNext := @next_eq (heap.withLinks (heap.links.extend out.getLast? left)) left leftLive
    rw [smallerNode, decide_eq_true smaller, if_pos smaller, if_pos rfl, addSmaller_eq outLive leftLive,
      Except.ok_bind, if_pos rfl, leftNext, Except.ok_bind, heads, List.getLast?_concat, withLinks_links, firstNext]
  · have rightNext := @next_eq (heap.withLinks (heap.links.extend out.getLast? right)) right rightLive
    rw [smallerNode, decide_eq_false smaller, if_neg smaller, if_neg Bool.false_ne_true,
      addSmaller_eq outLive rightLive, Except.ok_bind, if_neg (fun same => different (Option.some.inj same)),
      rightNext, Except.ok_bind, heads, List.getLast?_concat, withLinks_links, secondNext]

/-- The links have been changed so that the nodes form a chain, but nothing outside of
them, nor the first one's `prev`.  This is what one merge does; the `prev` of the
first node is set by nobody, and that is the fault of `sort_object`. -/
structure Chains (links after : Links Addr) (nodes sorted : List Addr) : Prop where
  chain : after.Chain sorted none
  others : ∀ node, node ∉ nodes -> after.next node = links.next node ∧ after.prev node = links.prev node
  first : ∀ node, sorted.head? = some node -> after.prev node = links.prev node

/-- The rest of a sub-list is appended as a whole, by one pair of links. -/
theorem appendRest_eq {out rest : List Addr} {beyond : Pointer} (outChain : heap.links.Chain out beyond)
    (restChain : heap.links.Chain rest none) (outLive : heap.AllLive out) (restLive : heap.AllLive rest)
    (distinct : (out ++ rest).Nodup) (outSome : out ≠ []) (restSome : rest ≠ []) :
    ∃ links, heap.appendRest out.getLast? rest.head? = .ok (heap.withLinks links) ∧
      Chains heap.links links (out ++ rest) (out ++ rest) := by
  rcases List.exists_cons_of_ne_nil restSome with ⟨node, back, rfl⟩
  rcases List.eq_nil_or_concat out with rfl | ⟨before, last, rfl⟩
  · exact absurd rfl outSome
  rw [List.concat_eq_append] at *
  have lastLive := outLive last (List.mem_append_right _ List.mem_cons_self)
  have nodeLive := restLive node List.mem_cons_self
  refine ⟨(heap.links.setNext last (some node)).setPrev node (some last), ?_,
    outChain.join restChain distinct, ?_, ?_⟩
  · rw [appendRest, List.head?_cons, Option.isNone_some, if_neg Bool.false_ne_true, List.getLast?_concat,
      setNext_eq lastLive, Except.ok_bind]
    exact @setPrev_eq (heap.withLinks (heap.links.setNext last (some node))) node nodeLive (some last)
  · intro other outside
    have notLast : other ≠ last := by
      rintro rfl
      exact outside (by simp)
    have notNode : other ≠ node := by
      rintro rfl
      exact outside (by simp)
    simp [notLast, notNode]
  · intro first isFirst
    have different : first ≠ node := by
      rintro rfl
      have inside : first ∈ before ++ [last] := by
        rw [List.head?_append_of_ne_nil _ (List.concat_ne_nil _ _)] at isFirst
        exact List.mem_of_mem_head? isFirst
      exact (List.nodup_append.mp distinct).2.2 first inside first List.mem_cons_self rfl
    simp [different]

theorem Chains.refl {links : Links Addr} (chain : links.Chain nodes none) : Chains links links nodes nodes :=
  ⟨chain, fun _ _ => ⟨rfl, rfl⟩, fun _ _ => rfl⟩

/-- What is left of one list goes behind the result, whichever list it is.  The rest
is a chain already, so one pair of links is all that changes. -/
theorem finishMerge_eq {out rest : List Addr} {beyond : Pointer} (outChain : heap.links.Chain out beyond)
    (restChain : heap.links.Chain rest none) (live : heap.AllLive (out ++ rest)) (distinct : (out ++ rest).Nodup)
    (restSome : rest ≠ []) :
    ∃ links, finishMerge ⟨heap, rest.head?, none, out.head?, out.getLast?⟩ =
        .ok ((out ++ rest).head?, heap.withLinks links) ∧
      finishMerge ⟨heap, none, rest.head?, out.head?, out.getLast?⟩ =
        .ok ((out ++ rest).head?, heap.withLinks links) ∧
      Chains heap.links links (out ++ rest) (out ++ rest) := by
  have some : rest.head?.isSome = true := List.isSome_head?.mpr restSome
  have none : ∀ heap : Heap, heap.appendRest out.getLast? Option.none = .ok heap := fun _ => rfl
  by_cases empty : out = []
  · subst empty
    refine ⟨heap.links, ?_, ?_, .refl restChain⟩
    · rw [finishMerge, if_pos ⟨some, rfl⟩]
      rfl
    · rw [finishMerge, if_neg (fun both => Bool.false_ne_true both.1)]
      dsimp only
      rw [none, Except.ok_bind, if_pos ⟨some, rfl⟩]
      rfl
  · have outLive : heap.AllLive out := fun node inside => live node (List.mem_append_left _ inside)
    have restLive : heap.AllLive rest := fun node inside => live node (List.mem_append_right _ inside)
    have started : ¬ out.head?.isNone = true := by
      rcases List.exists_cons_of_ne_nil empty with ⟨first, back, rfl⟩
      exact Bool.false_ne_true
    have head : out.head? = (out ++ rest).head? := (List.head?_append_of_ne_nil _ empty).symm
    rcases appendRest_eq outChain restChain outLive restLive distinct empty restSome with ⟨links, appended, chains⟩
    refine ⟨links, ?_, ?_, chains⟩
    · rw [finishMerge, if_neg (fun both => started both.2)]
      dsimp only
      rw [appended, Except.ok_bind, if_neg (fun both => Bool.false_ne_true both.1), none, head]
      rfl
    · rw [finishMerge, if_neg (fun both => Bool.false_ne_true both.1)]
      dsimp only
      rw [none, Except.ok_bind, if_neg (fun both => started both.2), appended, head]
      rfl

/-- A node has been put behind the result, and the rest is merged.  This is the step
of the induction over the merge. -/
theorem Chains.step {links after : Links Addr} {out rest sorted : List Addr} {node : Addr}
    (chains : Chains (links.extend out.getLast? node) after ((out ++ [node]) ++ rest) sorted)
    (all : nodes.Perm ((out ++ [node]) ++ rest)) (fresh : node ∉ out)
    (head : sorted.head? = (out ++ [node]).head?) : Chains links after nodes sorted where
  chain := chains.chain
  others other outside := by
    have apart := mt all.mem_iff.mpr outside
    have notLast : out.getLast? ≠ some other := by
      intro last
      exact apart (List.mem_append_left _ (List.mem_append_left _ (List.mem_of_getLast? last)))
    have different : other ≠ node := by
      rintro rfl
      exact apart (by simp)
    have same := chains.others other apart
    rw [Links.extend_next node notLast, Links.extend_prev _ different] at same
    exact same
  first other isFirst := by
    rw [chains.first other isFirst]
    exact Links.extend_prev_first fresh (head ▸ isFirst)

/-- The loop and what follows it merge two chains, behind a result that has been built
already. -/
theorem mergeLists_eq {out first second : List Addr} {beyond : Pointer} (outChain : heap.links.Chain out beyond)
    (firstChain : heap.links.Chain first none) (secondChain : heap.links.Chain second none)
    (live : heap.AllLive (out ++ (first ++ second))) (distinct : (out ++ (first ++ second)).Nodup)
    (some : first ≠ [] ∨ second ≠ []) (enough : first.length + second.length < fuel) :
    ∃ links, (mergeLoop caseSensitive fuel
        ⟨heap, first.head?, second.head?, out.head?, out.getLast?⟩ >>= finishMerge) =
        .ok ((out ++ List.merge first second (smallerNode heap.fieldsOf caseSensitive)).head?, heap.withLinks links) ∧
      Chains heap.links links (out ++ (first ++ second))
        (out ++ List.merge first second (smallerNode heap.fieldsOf caseSensitive)) := by
  induction fuel generalizing heap out first second beyond with
  | zero => exact absurd enough (Nat.not_lt_zero _)
  | succ fuel ih =>
      have outLive : heap.AllLive out := fun node inside => live node (List.mem_append_left _ inside)
      have liveRest : heap.AllLive (first ++ second) := fun node inside => live node (List.mem_append_right _ inside)
      rcases first with _ | ⟨left, first⟩
      · rw [List.nil_append] at *
        rcases finishMerge_eq outChain secondChain live distinct
          (some.resolve_left (fun nonempty => nonempty rfl)) with
          ⟨links, _, finished, chains⟩
        exact ⟨links, by rw [List.nil_merge]; exact finished, by rw [List.nil_merge]; exact chains⟩
      rcases second with _ | ⟨right, second⟩
      · rw [List.append_nil] at *
        rcases finishMerge_eq outChain firstChain live distinct (List.cons_ne_nil _ _) with
          ⟨links, finished, _, chains⟩
        exact ⟨links, by rw [List.merge_right]; exact finished, by rw [List.merge_right]; exact chains⟩
      have leftLive := liveRest left (List.mem_append_left _ List.mem_cons_self)
      have rightLive := liveRest right (List.mem_append_right _ List.mem_cons_self)
      rw [List.length_cons, List.length_cons] at enough
      have apart := (List.nodup_append.mp distinct).2.2
      have leftFresh : left ∉ out := fun inside => apart left inside left List.mem_cons_self rfl
      have rightFresh : right ∉ out := fun inside => apart right inside right (by simp) rfl
      have crossed := (List.nodup_append.mp (List.nodup_append.mp distinct).2.1).2.2
      have different : left ≠ right := crossed left List.mem_cons_self right List.mem_cons_self
      have notLast : ∀ node, node ∉ out -> out.getLast? ≠ .some node :=
        fun node fresh last => fresh (List.mem_of_getLast? last)
      have firstApart : ∀ node ∈ left :: first, out.getLast? ≠ .some node ∧ node ≠ right := by
        intro node inside
        refine ⟨notLast node fun old => apart node old node (List.mem_append_left _ inside) rfl, ?_⟩
        exact crossed node inside right List.mem_cons_self
      have secondApart : ∀ node ∈ right :: second, out.getLast? ≠ .some node ∧ node ≠ left := by
        intro node inside
        refine ⟨notLast node fun old => apart node old node (List.mem_append_right _ inside) rfl, ?_⟩
        exact (crossed left List.mem_cons_self node inside).symm
      have toFirst := outChain.extend firstChain
        (distinct.sublist ((List.sublist_append_left _ _).append_left out))
      have toSecond := outChain.extend secondChain
        (distinct.sublist ((List.sublist_append_right _ _).append_left out))
      have nextLeft : (heap.links.extend out.getLast? left).next left = first.head? := by
        rw [toFirst.1.next_last, Option.or_none]
      have nextRight : (heap.links.extend out.getLast? right).next right = second.head? := by
        rw [toSecond.1.next_last, Option.or_none]
      rw [List.head?_cons, List.head?_cons, mergeLoop_round outLive leftLive rightLive nextLeft nextRight different]
      by_cases smaller : smallerNode heap.fieldsOf caseSensitive left right = true
      · have perm : (out ++ (left :: first ++ right :: second)).Perm
          ((out ++ [left]) ++ (first ++ right :: second)) := by
          rw [List.append_assoc]
          exact List.Perm.refl _
        have secondStays : (heap.links.extend out.getLast? left).Chain (right :: second) none :=
          secondChain.congr fun node inside =>
            ⟨Links.extend_next left (secondApart node inside).1, Links.extend_prev _ (secondApart node inside).2⟩
        rcases @ih (heap.withLinks (heap.links.extend out.getLast? left)) _ _ _ _ toFirst.1 toFirst.2 secondStays
          (fun node inside => live node (perm.mem_iff.mpr inside)) (perm.nodup_iff.mp distinct)
          (Or.inr (List.cons_ne_nil _ _)) (by rw [List.length_cons]; omega) with ⟨links, merged, chains⟩
        have whole : out ++ List.merge (left :: first) (right :: second) (smallerNode heap.fieldsOf caseSensitive) =
            (out ++ [left]) ++ List.merge first (right :: second) (smallerNode heap.fieldsOf caseSensitive) := by
          rw [List.cons_merge_cons_pos _ _ _ smaller, List.append_assoc]
          rfl
        rw [if_pos smaller, whole]
        exact ⟨links, merged, chains.step perm leftFresh (List.head?_append_of_ne_nil _ (List.concat_ne_nil _ _))⟩
      · have perm : (out ++ (left :: first ++ right :: second)).Perm
          ((out ++ [right]) ++ (left :: first ++ second)) := by
          rw [List.append_assoc]
          exact List.perm_middle.append_left out
        have firstStays : (heap.links.extend out.getLast? right).Chain (left :: first) none :=
          firstChain.congr fun node inside =>
            ⟨Links.extend_next right (firstApart node inside).1, Links.extend_prev _ (firstApart node inside).2⟩
        rcases @ih (heap.withLinks (heap.links.extend out.getLast? right)) _ _ _ _ toSecond.1 firstStays toSecond.2
          (fun node inside => live node (perm.mem_iff.mpr inside)) (perm.nodup_iff.mp distinct)
          (Or.inl (List.cons_ne_nil _ _)) (by rw [List.length_cons]; omega) with ⟨links, merged, chains⟩
        have whole : out ++ List.merge (left :: first) (right :: second) (smallerNode heap.fieldsOf caseSensitive) =
            (out ++ [right]) ++ List.merge (left :: first) second (smallerNode heap.fieldsOf caseSensitive) := by
          rw [List.cons_merge_cons_neg _ _ _ smaller, List.append_assoc]
          rfl
        rw [if_neg smaller, whole]
        exact ⟨links, merged, chains.step perm rightFresh (List.head?_append_of_ne_nil _ (List.concat_ne_nil _ _))⟩

/-! ## Sorting -/

/-- The list is cut in front of the second part: the last node of the first part loses
its `next`, the first one of the second part its `prev`. -/
theorem splitList_eq {front back : List Addr} {prior second : Addr}
    (chain : heap.links.Chain (front ++ prior :: second :: back) none)
    (live : heap.AllLive (front ++ prior :: second :: back)) :
    heap.splitList (some second) =
      .ok (heap.withLinks ((heap.links.setNext prior none).setPrev second none)) := by
  have priorLive := live prior (by simp)
  have secondLive := live second (by simp)
  have prev : heap.links.prev second = some prior := by
    have split : front ++ prior :: second :: back = (front ++ [prior]) ++ second :: back := by
      rw [List.append_assoc]
      rfl
    rw [split] at chain
    rw [(Links.Run.at chain).1, List.getLast?_concat, Option.some_or]
  rw [splitList, Option.isNone_some, if_neg Bool.false_ne_true, prev_eq secondLive, Except.ok_bind, prev,
    Option.isNone_some, if_neg Bool.false_ne_true, setNext_eq priorLive, Except.ok_bind]
  exact @setPrev_eq (heap.withLinks (heap.links.setNext prior none)) second secondLive none

/-- The nodes have been brought into another order.  The `prev` of the one that came
to the front is what it was, or null where the list was cut: only if the first node
stays in front does it still know the last one of the list. -/
structure Sorts (links after : Links Addr) (nodes sorted : List Addr) : Prop where
  chain : after.Chain sorted none
  others : ∀ node, node ∉ nodes -> after.next node = links.next node ∧ after.prev node = links.prev node
  first : ∀ node, sorted.head? = some node ->
    after.prev node = if nodes.head? = some node then links.prev node else none

theorem Sorts.refl {links : Links Addr} (chain : links.Chain nodes none) : Sorts links links nodes nodes where
  chain := chain
  others _ _ := ⟨rfl, rfl⟩
  first _ isFirst := (if_pos isFirst).symm

/-- The halves have been cut apart, sorted one after the other and merged.  The nodes
of the one half are not touched while the other one is sorted, and the nodes outside
of the list not at all. -/
theorem Sorts.merge {links one two after : Links Addr} {front back first second sorted : List Addr}
    {prior cut : Addr} (distinct : ((front ++ [prior]) ++ cut :: back).Nodup)
    (firstHalf : Sorts ((links.setNext prior none).setPrev cut none) one (front ++ [prior]) first)
    (secondHalf : Sorts one two (cut :: back) second) (firstPerm : first.Perm (front ++ [prior]))
    (secondPerm : second.Perm (cut :: back)) (merged : Chains two after (first ++ second) sorted)
    (heads : sorted.head? = first.head? ∨ sorted.head? = second.head?) :
    Sorts links after ((front ++ [prior]) ++ cut :: back) sorted where
  chain := merged.chain
  others node outside := by
    have notFirst : node ∉ front ++ [prior] := fun inside => outside (List.mem_append_left _ inside)
    have notSecond : node ∉ cut :: back := fun inside => outside (List.mem_append_right _ inside)
    have notPrior : node ≠ prior := fun same => notFirst (same ▸ List.mem_append_right _ List.mem_cons_self)
    have notCut : node ≠ cut := fun same => notSecond (same ▸ List.mem_cons_self)
    have notMerged : node ∉ first ++ second := by
      rw [(firstPerm.append secondPerm).mem_iff]
      exact outside
    have same := firstHalf.others node notFirst
    rw [Links.setPrev_next, Links.setNext_next, if_neg notPrior, Links.setPrev_prev, if_neg notCut,
      Links.setNext_prev] at same
    rw [(merged.others node notMerged).1, (merged.others node notMerged).2, (secondHalf.others node notSecond).1,
      (secondHalf.others node notSecond).2]
    exact same
  first node isFirst := by
    have apart := (List.nodup_append.mp distinct).2.2
    have head : ((front ++ [prior]) ++ cut :: back).head? = (front ++ [prior]).head? :=
      List.head?_append_of_ne_nil _ (List.concat_ne_nil _ _)
    rw [merged.first node isFirst, head]
    rcases heads with same | same <;> rw [isFirst] at same
    · have inside := firstPerm.mem_iff.mp (List.mem_of_mem_head? same.symm)
      have notSecond : node ∉ cut :: back := fun also => apart node inside node also rfl
      have notCut : node ≠ cut := fun same => notSecond (same ▸ List.mem_cons_self)
      rw [(secondHalf.others node notSecond).2, firstHalf.first node same.symm, Links.setPrev_prev, if_neg notCut,
        Links.setNext_prev]
    · have inside := secondPerm.mem_iff.mp (List.mem_of_mem_head? same.symm)
      have notFirst : node ∉ front ++ [prior] := fun also => apart node also node inside rfl
      rw [secondHalf.first node same.symm, if_neg fun wrong : (front ++ [prior]).head? = some node =>
          notFirst (List.mem_of_mem_head? wrong)]
      -- the node that the second half began with lost its prev in the cut
      by_cases began : (cut :: back).head? = some node
      · cases began
        rw [if_pos List.head?_cons, (firstHalf.others cut notFirst).2, Links.setPrev_prev, if_pos rfl]
      · rw [if_neg began]

/-- What `sort_list` does with a list that is not sorted: cut, sort, sort, merge. -/
theorem sortList_unsorted (chain : heap.links.Chain nodes none) (live : heap.AllLive nodes)
    (enough : nodes.length < fuel + 1) (long : 1 < nodes.length)
    (unsorted : ¬ MergeSort.increasing (smallerNode heap.fieldsOf caseSensitive) nodes = true) :
    sortList caseSensitive (fuel + 1) heap nodes.head? = (do
      let second := (nodes.drop ((nodes.length + 1) / 2)).head?
      let heap ← heap.splitList second
      let (first, heap) ← sortList caseSensitive fuel heap nodes.head?
      let (second, heap) ← sortList caseSensitive fuel heap second
      mergeLoop caseSensitive (fuel + 1) ⟨heap, first, second, none, none⟩ >>= finishMerge) := by
  have sorted := @isSorted_eq _ _ caseSensitive _ chain live
    (List.ne_nil_of_length_pos (Nat.zero_lt_of_lt long)) enough
  have middle := middleLoop_eq chain live chain live le_rfl enough
  rw [Bool.not_eq_true] at unsorted
  rcases nodes with _ | ⟨first, _ | ⟨second, rest⟩⟩
  · exact absurd long (Nat.not_lt_zero _)
  · exact absurd long (Nat.lt_irrefl _)
  · rw [unsorted, List.head?_cons] at sorted
    rw [List.head?_cons] at middle
    rw [List.head?_cons, sortList, Option.isNone_some, if_neg Bool.false_ne_true,
      next_eq (live first List.mem_cons_self), Except.ok_bind, chain.next_first, List.head?_cons, Option.isNone_some,
      if_neg Bool.false_ne_true, sorted, Except.ok_bind, if_neg Bool.false_ne_true, middle, Except.ok_bind]

/-- `sort_list` sorts, and it ends: its head is that of the sorted list, and the links
are those of the nodes in this order.  If the list was increasing already, no link has
changed. -/
theorem sortList_eq (chain : heap.links.Chain nodes none) (live : heap.AllLive nodes)
    (enough : nodes.length < fuel) :
    ∃ links, sortList caseSensitive fuel heap nodes.head? =
        .ok ((MergeSort.sort (smallerNode heap.fieldsOf caseSensitive) nodes).head?, heap.withLinks links) ∧
      Sorts heap.links links nodes (MergeSort.sort (smallerNode heap.fieldsOf caseSensitive) nodes) ∧
      (MergeSort.increasing (smallerNode heap.fieldsOf caseSensitive) nodes = true -> links = heap.links) := by
  induction fuel generalizing heap nodes with
  | zero => exact absurd enough (Nat.not_lt_zero _)
  | succ fuel ih =>
      by_cases increasing : MergeSort.increasing (smallerNode heap.fieldsOf caseSensitive) nodes = true
      · refine ⟨heap.links, ?_, ?_, fun _ => rfl⟩
        · rw [MergeSort.sort_of_increasing increasing]
          rcases nodes with _ | ⟨first, rest⟩
          · rfl
          have sorted := @isSorted_eq _ _ caseSensitive _ chain live (List.cons_ne_nil _ _) enough
          rw [List.head?_cons, increasing] at sorted
          rw [List.head?_cons, sortList, Option.isNone_some, if_neg Bool.false_ne_true,
            next_eq (live first List.mem_cons_self), Except.ok_bind]
          split
          · rfl
          · rw [sorted]
            rfl
        · rw [MergeSort.sort_of_increasing increasing]
          exact .refl chain
      · have long : 1 < nodes.length := by
          rcases nodes with _ | ⟨first, _ | ⟨second, rest⟩⟩
          · exact absurd rfl increasing
          · exact absurd rfl increasing
          · exact Nat.succ_lt_succ (Nat.succ_pos _)
        rw [sortList_unsorted chain live enough long increasing, MergeSort.sort_eq_merge long increasing]
        have whole := List.take_append_drop ((nodes.length + 1) / 2) nodes
        have rest := @List.length_drop _ ((nodes.length + 1) / 2) nodes
        rcases MergeSort.exists_halves long with ⟨front, prior, cut, back, taken, dropped⟩
        rw [taken, dropped] at whole
        rw [dropped] at rest
        rw [taken, dropped]
        clear taken dropped
        subst whole
        have lengths := @List.length_append _ (front ++ [prior]) (cut :: back)
        have head : ((front ++ [prior]) ++ cut :: back).head? = (front ++ [prior]).head? :=
          List.head?_append_of_ne_nil _ (List.concat_ne_nil _ _)
        have firstLive : heap.AllLive (front ++ [prior]) := fun node inside =>
          live node (List.mem_append_left _ inside)
        have secondLive : heap.AllLive (cut :: back) := fun node inside => live node (List.mem_append_right _ inside)
        have distinct := chain.nodup
        have apart := (List.nodup_append.mp distinct).2.2
        have regrouped : (front ++ [prior]) ++ cut :: back = front ++ prior :: cut :: back := by
          rw [List.append_assoc]
          rfl
        rw [regrouped] at chain live
        rcases chain.cut chain.nodup with ⟨firstChain, secondChain⟩
        rcases @ih (heap.withLinks ((heap.links.setNext prior none).setPrev cut none)) _ firstChain
          firstLive (by omega)
          with ⟨one, firstSorted, firstSorts, _⟩
        have secondStays : one.Chain (cut :: back) none := secondChain.congr fun node inside =>
          firstSorts.others node fun also => apart node also node inside rfl
        rcases @ih (heap.withLinks one) _ secondStays secondLive (by omega) with ⟨two, secondSorted, secondSorts, _⟩
        have firstPerm := @MergeSort.sort_perm _ (smallerNode heap.fieldsOf caseSensitive) (front ++ [prior])
        have secondPerm := @MergeSort.sort_perm _ (smallerNode heap.fieldsOf caseSensitive) (cut :: back)
        have bothPerm := firstPerm.append secondPerm
        have enoughMerge : (MergeSort.sort (smallerNode heap.fieldsOf caseSensitive) (front ++ [prior])).length +
            (MergeSort.sort (smallerNode heap.fieldsOf caseSensitive) (cut :: back)).length < fuel + 1 := by
          rw [firstPerm.length_eq, secondPerm.length_eq]
          omega
        have firstStays : two.Chain (MergeSort.sort (smallerNode heap.fieldsOf caseSensitive)
            (front ++ [prior])) none :=
          firstSorts.chain.congr fun node inside =>
            secondSorts.others node fun also => apart node (firstPerm.mem_iff.mp inside) node also rfl
        rcases @mergeLists_eq (heap.withLinks two) caseSensitive (fuel + 1) [] _ _ none Links.chain_nil firstStays
          secondSorts.chain (fun node inside => live node (regrouped ▸ bothPerm.mem_iff.mp inside))
          (bothPerm.nodup_iff.mpr distinct) (Or.inr fun none => List.cons_ne_nil _ _ (none ▸ secondPerm).nil_eq.symm)
          enoughMerge with ⟨links, merged, chains⟩
        refine ⟨links, ?_, firstSorts.merge distinct secondSorts firstPerm secondPerm chains MergeSort.merge_head?,
          fun impossible => absurd impossible increasing⟩
        rw [head, List.head?_cons]
        dsimp only
        rw [splitList_eq chain live, Except.ok_bind, firstSorted, Except.ok_bind]
        dsimp only
        rw [List.head?_cons] at secondSorted
        rw [withLinks_withLinks, secondSorted, Except.ok_bind]
        exact merged

/-! ## The order of the names -/

/-- The names come in the order of `compare_strings`.  Equal names may stand beside
each other in any order. -/
def InNameOrder (fieldsOf : Addr -> Fields) (caseSensitive : Bool) (nodes : List Addr) : Prop :=
  nodes.Pairwise fun first second =>
    compareStrings (fieldsOf first).string (fieldsOf second).string caseSensitive ≤ 0

/-- A name as the comparison sees it. -/
def nameKey (fieldsOf : Addr -> Fields) (caseSensitive : Bool) (node : Addr) : List Nat :=
  folded (caseFold caseSensitive) ((fieldsOf node).string.getD [])

variable {fieldsOf : Addr -> Fields}

theorem compareStrings_names {first second : Addr} (firstNamed : (fieldsOf first).string.isSome)
    (secondNamed : (fieldsOf second).string.isSome) :
    (compareStrings (fieldsOf first).string (fieldsOf second).string caseSensitive < 0 ↔
      nameKey fieldsOf caseSensitive first < nameKey fieldsOf caseSensitive second) ∧
    (compareStrings (fieldsOf first).string (fieldsOf second).string caseSensitive = 0 ↔
      nameKey fieldsOf caseSensitive first = nameKey fieldsOf caseSensitive second) := by
  rcases Option.isSome_iff_exists.mp firstNamed with ⟨firstName, firstStored⟩
  rcases Option.isSome_iff_exists.mp secondNamed with ⟨secondName, secondStored⟩
  rw [nameKey, nameKey, firstStored, secondStored]
  exact compareBy_spec (keepsTerminator_caseFold caseSensitive) firstName secondName

theorem smallerNode_orders (named : ∀ node ∈ nodes, (fieldsOf node).string.isSome) :
    MergeSort.Orders (smallerNode fieldsOf caseSensitive) (nameKey fieldsOf caseSensitive) nodes := by
  intro left leftMember right rightMember
  rw [smallerNode, decide_eq_true_iff]
  exact (compareStrings_names (named left leftMember) (named right rightMember)).1

theorem sort_inNameOrder (named : ∀ node ∈ nodes, (fieldsOf node).string.isSome) :
    InNameOrder fieldsOf caseSensitive (MergeSort.sort (smallerNode fieldsOf caseSensitive) nodes) := by
  have sorted := MergeSort.sort_sorted (@smallerNode_orders _ caseSensitive _ named)
  have perm := @MergeSort.sort_perm _ (smallerNode fieldsOf caseSensitive) nodes
  apply sorted.imp_of_mem
  intro first second firstMember secondMember below
  have spec := @compareStrings_names caseSensitive _ _ _ (named first (perm.mem_iff.mp firstMember))
    (named second (perm.mem_iff.mp secondMember))
  rcases lt_or_eq_of_le below with smaller | same
  · exact le_of_lt (spec.1.mpr smaller)
  · exact le_of_eq (spec.2.mpr same)

theorem increasing_of_isChain (strictly : nodes.IsChain fun first second =>
      compareStrings (fieldsOf first).string (fieldsOf second).string caseSensitive < 0) :
    MergeSort.increasing (smallerNode fieldsOf caseSensitive) nodes = true := by
  induction nodes with
  | nil => rfl
  | cons first rest ih =>
      cases rest with
      | nil => rfl
      | cons second rest =>
          rcases List.isChain_cons_cons.mp strictly with ⟨smaller, tail⟩
          rw [MergeSort.increasing, ih tail, Bool.and_true, smallerNode, decide_eq_true smaller]

/-- `sort_object` sorts the list of the members and makes the object point at its
head.  Fuel beyond the number of members is enough, since each half is shorter than
the whole. -/
theorem sortObject_eq {object : Addr} (objectLive : heap.allocated object = true)
    (members : heap.childOf object = nodes.head?) (chain : heap.links.Chain nodes none)
    (live : heap.AllLive nodes) (enough : nodes.length < fuel) :
    ∃ links, sortObject fuel heap (some object) caseSensitive = .ok ((heap.withLinks links).withChild object
        (MergeSort.sort (smallerNode heap.fieldsOf caseSensitive) nodes).head?) ∧
      Sorts heap.links links nodes (MergeSort.sort (smallerNode heap.fieldsOf caseSensitive) nodes) ∧
      (MergeSort.increasing (smallerNode heap.fieldsOf caseSensitive) nodes = true -> links = heap.links) := by
  rcases @sortList_eq heap nodes caseSensitive fuel chain live enough with ⟨links, listSorted, sorts, unchanged⟩
  refine ⟨links, ?_, sorts, unchanged⟩
  rw [sortObject, Option.isNone_some, if_neg Bool.false_ne_true, child_eq objectLive, Except.ok_bind, members,
    listSorted, Except.ok_bind]
  exact @setChild_eq (heap.withLinks links) object objectLive _

/-- `sort_object` ends; the members it leaves are the same nodes in the order of their
names, linked in both directions.  Strictly increasing members stay as they are. -/
theorem sortObject_sorts {object : Addr} (objectLive : heap.allocated object = true)
    (members : heap.childOf object = nodes.head?) (chain : heap.links.Chain nodes none)
    (live : heap.AllLive nodes) (named : ∀ node ∈ nodes, (heap.fieldsOf node).string.isSome)
    (enough : nodes.length < fuel) :
    ∃ links sorted, sortObject fuel heap (some object) caseSensitive =
        .ok ((heap.withLinks links).withChild object sorted.head?) ∧
      sorted.Perm nodes ∧ sorted.Nodup ∧ links.Chain sorted none ∧
      InNameOrder heap.fieldsOf caseSensitive sorted ∧
      (nodes.IsChain (fun first second =>
          compareStrings (heap.fieldsOf first).string (heap.fieldsOf second).string caseSensitive < 0) ->
        sortObject fuel heap (some object) caseSensitive = .ok heap) := by
  rcases @sortObject_eq heap nodes caseSensitive fuel object objectLive members chain live enough with
    ⟨links, sorted, sorts, unchanged⟩
  refine ⟨links, _, sorted, MergeSort.sort_perm nodes, sorts.chain.nodup, sorts.chain, sort_inNameOrder named, ?_⟩
  intro strictly
  have increasing := increasing_of_isChain strictly
  rw [sorted, unchanged increasing, MergeSort.sort_of_increasing increasing, ← members, withLinks, withChild,
    Function.update_eq_self]

/-- An object with members of these names, at the addresses behind it. -/
def objectOf (names : List Bytes) : Heap where
  allocated node := node ≤ names.length
  unused := names.length + 1
  links := {
    next := fun node => if 0 < node ∧ node < names.length then some (node + 1) else none
    prev := fun node => if node = 1 then some names.length else if 1 < node then some (node - 1) else none }
  childOf node := if node = 0 ∧ names ≠ [] then some 1 else none
  fieldsOf node := {
    type_ := { base := if node = 0 then .object else .null }
    string := if node = 0 then none else names[node - 1]? }
  hooks := ⟨fun _ _ => true, true⟩

theorem sortObject_sorts_two :
    ∃ links sorted, sortObject 3 (objectOf [[98, 0], [97, 0]]) (some 0) true =
        .ok (((objectOf [[98, 0], [97, 0]]).withLinks links).withChild 0 sorted.head?) ∧
      sorted.Perm [1, 2] ∧ sorted.Nodup ∧ links.Chain sorted none ∧
      InNameOrder (objectOf [[98, 0], [97, 0]]).fieldsOf true sorted := by
  have chain : (objectOf [[98, 0], [97, 0]]).links.Chain [1, 2] none := ⟨rfl, rfl, rfl, rfl, trivial⟩
  have live : ∀ node ∈ [1, 2], (objectOf [[98, 0], [97, 0]]).allocated node = true := by decide
  rcases @sortObject_sorts (objectOf [[98, 0], [97, 0]]) [1, 2] true 3 0 rfl rfl chain live
    (by decide) (by decide) with ⟨links, sorted, result, perm, nodup, after, order, _⟩
  exact ⟨links, sorted, result, perm, nodup, after, order⟩

end Heap
end CJson
