import CJson.SortedMembers

/-!
# What sorting does to equal names

Where two members have the same name, `sort_list` puts the second one first: its merge
takes from the first half only what is strictly smaller.  For the same reason a list
with such a pair never counts as sorted, and sorting it again turns the pair around
once more.
-/

namespace CJson
namespace Heap

open CString

variable {heap after : Heap} {object : Addr} {nodes sorted : List Addr} {caseSensitive : Bool} {fuel : Nat}
  {fieldsOf : Addr -> Fields}

/-- Members have names, and no two of them the same one. -/
def DistinctlyNamed (fieldsOf : Addr -> Fields) (caseSensitive : Bool) (nodes : List Addr) : Prop :=
  (∀ node ∈ nodes, (fieldsOf node).string.isSome = true) ∧
    nodes.Pairwise fun first second =>
      compareStrings (fieldsOf first).string (fieldsOf second).string caseSensitive ≠ 0

theorem distinctlyNamed_iff : DistinctlyNamed fieldsOf caseSensitive nodes ↔
    (∀ node ∈ nodes, (fieldsOf node).string.isSome = true) ∧
      nodes.Pairwise fun first second =>
        nameKey fieldsOf caseSensitive first ≠ nameKey fieldsOf caseSensitive second := by
  apply and_congr_right
  intro named
  apply List.Pairwise.iff_of_mem
  intro first second firstMember secondMember
  exact not_congr (compareStrings_names (named first firstMember) (named second secondMember)).2

/-- With distinct names, a lookup finds the member of that name, wherever it stands.
Sorting therefore does not change what a lookup finds. -/
theorem findMember_eq_some_iff {name : Bytes} {node : Addr}
    (named : ∀ node ∈ nodes, (fieldsOf node).string.isSome = true)
    (different : nodes.Pairwise fun first second =>
      nameKey fieldsOf caseSensitive first ≠ nameKey fieldsOf caseSensitive second) :
    findMember fieldsOf name caseSensitive nodes = some node ↔
      node ∈ nodes ∧ nameKey fieldsOf caseSensitive node = folded (caseFold caseSensitive) name := by
  induction nodes with
  | nil => exact iff_of_false (fun impossible => nomatch impossible) (fun both => nomatch both.1)
  | cons first rest ih =>
      rcases List.pairwise_cons.mp different with ⟨apart, restDifferent⟩
      have later := ih (fun other inside => named other (List.mem_cons_of_mem _ inside)) restDifferent
      rcases Option.isSome_iff_exists.mp (named first List.mem_cons_self) with ⟨string, stored⟩
      have key : nameKey fieldsOf caseSensitive first =
          folded (caseFold caseSensitive) string := by
        rw [nameKey, stored]
        rfl
      have compared := (compareBy_spec (keepsTerminator_caseFold caseSensitive) string name).2
      rw [findMember, stored]
      dsimp only
      by_cases same : compareBy (caseFold caseSensitive) string name = 0
      · rw [if_pos same]
        have found := key.trans (compared.mp same)
        constructor
        · rintro ⟨⟩
          exact ⟨List.mem_cons_self, found⟩
        · rintro ⟨inside, also⟩
          rcases List.mem_cons.mp inside with rfl | behind
          · rfl
          · exact absurd (found.trans also.symm) (apart node behind)
      · rw [if_neg same, later]
        constructor
        · exact fun both => ⟨List.mem_cons_of_mem _ both.1, both.2⟩
        · rintro ⟨inside, also⟩
          rcases List.mem_cons.mp inside with rfl | behind
          · exact absurd (compared.mpr (key.symm.trans also)) same
          · exact ⟨behind, also⟩

/-- What a lookup in a list of members returns: the first member that answers to the
name.  The list needs no `prev` for that. -/
theorem getObjectItem_settles (live : heap.allocated object = true) (members : heap.childOf object = nodes.head?)
    (chain : heap.links.Chain nodes none) (allLive : heap.AllLive nodes) (name : Bytes)
    (caseSensitive : Bool) :
    Settles (fun fuel => heap.getObjectItem fuel (some object) (some name) caseSensitive) fun found =>
      found = findMember heap.fieldsOf name caseSensitive nodes := by
  apply (getObjectItemLoop_settles chain allLive name caseSensitive).congr
  intro fuel
  rw [Heap.getObjectItem, child_eq live, Except.ok_bind, members]

/-- What a stable sort keeps.  Two members of one name stay in their order, a lookup
finds the node it found before, and sorting once more changes nothing. -/
structure SortsStably (fuel : Nat) (heap after : Heap) (object : Addr) (nodes sorted : List Addr)
    (caseSensitive : Bool) : Prop where
  stable : ∀ first second, [first, second].Sublist nodes ->
    compareStrings (heap.fieldsOf first).string (heap.fieldsOf second).string caseSensitive = 0 ->
      [first, second].Sublist sorted
  lookups : ∀ name found,
    Settles (fun fuel => heap.getObjectItem fuel (some object) (some name) caseSensitive) (· = found) ->
      Settles (fun fuel => after.getObjectItem fuel (some object) (some name) caseSensitive) (· = found)
  again : ∃ final, after.sortObject fuel (some object) caseSensitive = .ok final ∧
    final.childOf object = sorted.head? ∧ final.links.Chain sorted none

/-- `sort_object` is stable and idempotent exactly if there is at most one member, or all
members have names and no two of them the same one in the mode of the sort. -/
theorem sortObject_sortsStably_iff (objectLive : heap.allocated object = true)
    (members : heap.childOf object = nodes.head?) (chain : heap.links.Chain nodes none)
    (live : heap.AllLive nodes) (enough : nodes.length < fuel) :
    ∃ after sorted, heap.sortObject fuel (some object) caseSensitive = .ok after ∧ sorted.Perm nodes ∧
      after.childOf object = sorted.head? ∧ after.links.Chain sorted none ∧
      (SortsStably fuel heap after object nodes sorted caseSensitive ↔
        nodes.length ≤ 1 ∨ DistinctlyNamed heap.fieldsOf caseSensitive nodes) := by
  rcases @sortObject_eq heap nodes caseSensitive fuel object objectLive members chain live enough with
    ⟨links, first, sorts, _⟩
  have perm := @MergeSort.sort_perm _ (smallerNode heap.fieldsOf caseSensitive) nodes
  have compares := smallerNode_comparesNamed heap.fieldsOf caseSensitive
  have twice := MergeSort.sort_sort_iff compares chain.nodup
  rw [← distinctlyNamed_iff] at twice
  -- the second sort starts from what the first one has left
  generalize afterEq : (heap.withLinks links).withChild object
    (MergeSort.sort (smallerNode heap.fieldsOf caseSensitive) nodes).head? = after at first
  have fields : after.fieldsOf = heap.fieldsOf := by rw [← afterEq, withChild_fieldsOf, withLinks_fieldsOf]
  have allocated : after.allocated = heap.allocated := by
    rw [← afterEq, withChild_allocated, withLinks_allocated]
  have linked : after.links = links := by rw [← afterEq, withChild_links, withLinks_links]
  have head : after.childOf object = (MergeSort.sort (smallerNode heap.fieldsOf caseSensitive) nodes).head? := by
    rw [← afterEq, withChild_childOf, if_pos rfl]
  have sortedChain := sorts.chain
  rw [← linked] at sortedChain
  have objectStays : after.allocated object = true := by rw [allocated, objectLive]
  have sortedLive : after.AllLive (MergeSort.sort (smallerNode heap.fieldsOf caseSensitive) nodes) := by
    intro node inside
    rw [allocated]
    exact live node (perm.mem_iff.mp inside)
  rcases @sortObject_eq after _ caseSensitive fuel object objectStays head sortedChain sortedLive
    (perm.length_eq.trans_lt enough) with ⟨more, second, resorts, _⟩
  rw [fields] at second resorts
  refine ⟨after, _, first, perm, head, sortedChain, ?_⟩
  rw [← twice]
  constructor
  · rintro ⟨_, _, final, resorted, start, again⟩
    rw [resorted] at second
    cases second
    rw [withChild_childOf, if_pos rfl] at start
    exact resorts.chain.unique again start
  · intro fixed
    have finds : ∀ name, findMember heap.fieldsOf name caseSensitive nodes =
        findMember heap.fieldsOf name caseSensitive
          (MergeSort.sort (smallerNode heap.fieldsOf caseSensitive) nodes) := by
      intro name
      rcases twice.mp fixed with short | distinct
      · rw [MergeSort.sort_of_length_le short]
      · rw [distinctlyNamed_iff] at distinct
        apply Option.ext
        intro node
        rw [findMember_eq_some_iff distinct.1 distinct.2, findMember_eq_some_iff, perm.mem_iff]
        · exact fun node inside => distinct.1 node (perm.mem_iff.mp inside)
        · exact (perm.pairwise_iff fun apart => apart.symm).mpr distinct.2
    refine ⟨?_, ?_, ?_⟩
    · intro one two inOrder same
      rcases twice.mp fixed with short | distinct
      · exact absurd (inOrder.length_le.trans short) (Nat.lt_irrefl 1)
      · exact absurd same (distinct.2.forall_sublist inOrder)
    · intro name found before
      have now := @getObjectItem_settles after object _ objectStays head sortedChain sortedLive name caseSensitive
      have old := getObjectItem_settles objectLive members chain live name caseSensitive
      rw [fields, ← finds] at now
      rcases before.and old with ⟨_, _, _, rfl, same⟩
      exact now.mono fun value isFound => isFound.trans same.symm
    · refine ⟨_, second, ?_, ?_⟩
      · rw [withChild_childOf, if_pos rfl, fixed]
      · have stays := resorts.chain
        rw [fixed] at stays
        exact stays

theorem sortObject_sortsStably_iff_two :
    ∃ after sorted, (objectOf [[98, 0], [97, 0]]).sortObject 3 (some 0) true = .ok after ∧ sorted.Perm [1, 2] ∧
      after.childOf 0 = sorted.head? ∧ after.links.Chain sorted none ∧
      (SortsStably 3 (objectOf [[98, 0], [97, 0]]) after 0 [1, 2] sorted true ↔
        [1, 2].length ≤ 1 ∨ DistinctlyNamed (objectOf [[98, 0], [97, 0]]).fieldsOf true [1, 2]) := by
  have chain : (objectOf [[98, 0], [97, 0]]).links.Chain [1, 2] none := ⟨rfl, rfl, rfl, rfl, trivial⟩
  have live : ∀ node ∈ [1, 2], (objectOf [[98, 0], [97, 0]]).allocated node = true := by decide
  exact sortObject_sortsStably_iff rfl rfl chain live (by decide)

/-- The object `{"a": null, "a": null}`: the sort turns the two members around, so that a
lookup finds the other one, and a second sort turns them back. -/
theorem sort_swaps_equal_names :
    ∃ after final, (objectOf [[97, 0], [97, 0]]).sortObject 3 (some 0) true = .ok after ∧
      after.links.Chain [2, 1] none ∧ after.childOf 0 = some 2 ∧
      (objectOf [[97, 0], [97, 0]]).getObjectItem 3 (some 0) (some [97, 0]) true = .ok (some 1) ∧
      after.getObjectItem 3 (some 0) (some [97, 0]) true = .ok (some 2) ∧
      after.sortObject 3 (some 0) true = .ok final ∧ final.childOf 0 = some 1 := by
  refine ⟨_, _, rfl, ⟨rfl, rfl, rfl, rfl, trivial⟩, rfl, rfl, rfl, rfl, rfl⟩

end Heap
end CJson
