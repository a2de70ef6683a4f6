import CJson.HeapRefinement

/-!
# What queries read

The functions that only look at nodes return what is in the tree that the node
stands for: how many children it has, the child at an index or under a name, the
string and the number.
-/

namespace CJson

open CString

namespace Heap

open OrderedForest

variable {library : CLibrary} {heap : Heap} {fieldsOf : Addr -> Fields} {forest : OrderedForest Addr}
  {node : Addr} {item : Item}

/-- The child that has been found is the one at this position of the tree, if there is
one.  It stands for the subtree at that position. -/
def FoundAt (fieldsOf : Addr -> Fields) (forest : OrderedForest Addr) (node : Addr) (item : Item)
    (position : Option Nat) (found : Pointer) : Prop :=
  match position with
  | none => found = none
  | some position => ∃ child tree, found = some child ∧ (forest.children node)[position]? = some child ∧
      item.child[position]? = some tree ∧ Shows fieldsOf forest child tree

/-- Queries about a node are answered from its tree: its size, its children by index
and by name, and its value.  They all end, and the heap is not changed by any of them. -/
structure Answers (heap : Heap) (forest : OrderedForest Addr) (node : Addr) (item : Item) : Prop where
  size : Settles (fun fuel => Heap.cjsonGetArraySize fuel heap (some node)) fun size =>
    size = Int.bmod item.child.length (2 ^ 32)
  atIndex : ∀ index : Int, Returns (heap.cjsonGetArrayItem (some node) index)
    (FoundAt heap.fieldsOf forest node item
      (if index < 0 then none else if index.toNat < item.child.length then some index.toNat else none))
  named : ∀ string caseSensitive, Settles (fun fuel => Heap.getObjectItem fuel heap (some node) string caseSensitive)
    (FoundAt heap.fieldsOf forest node item (string.bind fun name => CJson.getObjectItem item name caseSensitive))
  has : ∀ string, Settles (fun fuel => Heap.cjsonHasObjectItem fuel heap (some node) string) fun has =>
    has = (string.bind fun name => CJson.getObjectItem item name false).isSome
  text : heap.cjsonGetStringValue (some node) = .ok (if item.isString then item.fields.valuestring else none)
  number : heap.cjsonGetNumberValue (some node) =
    .ok (if item.base = .number then item.fields.valuedouble else .nan)

theorem getArraySizeLoop_settles {before : Pointer} {nodes : List Addr} (run : heap.links.Run before nodes none)
    (live : ∀ node ∈ nodes, heap.allocated node = true) (size : Nat) :
    Settles (fun fuel => heap.getArraySizeLoop fuel nodes.head? size) fun counted =>
      counted = size + nodes.length := by
  induction nodes generalizing before size with
  | nil =>
      apply Settles.succ
      exact Settles.ok rfl
  | cons node rest hypothesis =>
      have next : heap.links.next node = rest.head? := by rw [run.2.1, Option.or_none]
      apply Settles.succ
      simp only [List.head?_cons, getArraySizeLoop, Option.isNone_some, next_eq (live node List.mem_cons_self), next,
        Except.ok_bind]
      apply (hypothesis run.2.2 (fun other inside => live other (List.mem_cons_of_mem _ inside)) (size + 1)).mono
      intro counted same
      rw [same, List.length_cons]
      omega

theorem Represents.getArraySize (draws : heap.Draws forest) (isLive : node ∈ forest.live) :
    Settles (fun fuel => Heap.cjsonGetArraySize fuel heap (some node)) fun size =>
      size = Int.bmod (forest.children node).length (2 ^ 32) := by
  simp only [Heap.cjsonGetArraySize, Option.isNone_some, child_eq (draws.allocated isLive), Except.ok_bind,
    draws.heads node isLive (by simp)]
  apply Settles.bind (getArraySizeLoop_settles (draws.run node isLive rfl)
    (fun child inside => draws.allocated (forest.closed inside).1) 0)
  intro counted same
  apply Settles.ok
  rw [same, Nat.zero_add]

/-- A child of the node is found where it is in the tree. -/
theorem Shows.foundAt (shows : Shows fieldsOf forest node item) {position : Option Nat} {found : Pointer}
    (isChild : ∀ child, found = some child -> child ∈ forest.children node)
    (same : position = found.map (forest.children node).idxOf) :
    FoundAt fieldsOf forest node item position found := by
  subst same
  cases found with
  | none => rfl
  | some child =>
      have inside := isChild child rfl
      rcases shows.child inside with ⟨tree, there, showsChild⟩
      exact ⟨child, tree, rfl, List.getElem?_idxOf inside, there, showsChild⟩

theorem Represents.answers (draws : heap.Draws forest) (isLive : node ∈ forest.live)
    (shows : Shows heap.fieldsOf forest node item) : Answers heap forest node item := by
  rcases shows_iff.mp shows with ⟨fields, _, each⟩
  have named : ∀ string caseSensitive, (string.bind fun name => CJson.getObjectItem item name caseSensitive) =
      (heap.underName forest string caseSensitive node).map (forest.children node).idxOf := by
    intro string caseSensitive
    cases string with
    | none => rfl
    | some name => exact shows.getObjectItem name caseSensitive
  constructor
  · rw [← each.length_eq]
    exact draws.getArraySize isLive
  · intro index
    unfold Heap.cjsonGetArrayItem
    by_cases negative : index < 0
    · rw [if_pos negative, if_pos negative]
      exact Returns.ok rfl
    · rw [if_neg negative, if_neg negative, draws.getArrayItem isLive rfl]
      refine Returns.ok (shows.foundAt ?_ ?_)
      · intro child there
        exact List.mem_of_getElem? there
      · rw [shows.atIndex negative, Heap.atIndex, if_neg negative]
  · intro string caseSensitive
    apply (draws.getObjectItem isLive string caseSensitive).mono
    rintro found rfl
    exact shows.foundAt (fun child found => underName_mem node child rfl found) (named string caseSensitive)
  · intro string
    apply Settles.bind (draws.getObjectItem isLive string false)
    rintro found rfl
    apply Settles.ok
    rw [named, Option.isSome_map]
  · rw [Heap.cjsonGetStringValue, if_neg (by simp), fields_eq (draws.allocated isLive), Except.ok_bind, ← fields]
    simp [Item.isString, Item.base]
  · rw [Heap.cjsonGetNumberValue, if_neg (by simp), fields_eq (draws.allocated isLive), Except.ok_bind, ← fields]
    rfl

/-- In every state that lawful calls lead to, queries about a node are answered from the
tree that it stands for. -/
theorem queries_read_trees (library : CLibrary) (consumes : library.ConsumesAtMost) (heap : Heap)
    (reachable : Reachable library Lawful heap) : ∃ forest, heap.Draws forest ∧
      ∀ node, heap.allocated node = true -> (∃ item, Shows heap.fieldsOf forest node item) ∧
        ∀ item, Shows heap.fieldsOf forest node item -> Answers heap forest node item := by
  rcases reachable.draws consumes with ⟨forest, draws⟩
  refine ⟨forest, draws, ?_⟩
  intro node isLive
  refine ⟨exists_shows heap.fieldsOf forest node, ?_⟩
  intro item shows
  exact draws.answers ((draws.live node).mp isLive) shows

theorem queries_read_trees_fourNodes :
    decimalLibrary.ConsumesAtMost ∧ Reachable decimalLibrary Lawful fourNodes ∧
    ∃ forest, fourNodes.Draws forest ∧
      ∀ node, fourNodes.allocated node = true -> (∃ item, Shows fourNodes.fieldsOf forest node item) ∧
        ∀ item, Shows fourNodes.fieldsOf forest node item -> Answers fourNodes forest node item := by
  have reachable : Reachable decimalLibrary Lawful fourNodes :=
    fourNodes_reachable (fun _ => ⟨⟨trivial, trivial⟩, trivial, trivial⟩)
  exact ⟨decimalLibrary_consumesAtMost, reachable,
    queries_read_trees decimalLibrary decimalLibrary_consumesAtMost fourNodes reachable⟩

end Heap
end CJson
