import CJson.Library.OrderedForest
import Mathlib.Order.WellFoundedSet

/-!
# Places in a forest

A list of positions leads from a node to one that is below it, and every node
below another is led to by some list.  A change at one node is seen from the
nodes above it only, and from each of those through one of its children.
-/

universe u v

namespace OrderedForest

variable {α : Type u} {forest : OrderedForest α} {top node parent child : α}

/-- The node that a list of positions leads to. -/
def at? (forest : OrderedForest α) : α -> List Nat -> Option α
  | top, [] => some top
  | top, position :: path =>
      match (forest.children top)[position]? with
      | none => none
      | some child => forest.at? child path

theorem below_of_at? {path : List Nat} (found : forest.at? top path = some node) : forest.Below top node := by
  induction path generalizing top with
  | nil =>
      cases found
      exact .refl
  | cons position path hypothesis =>
      rw [at?] at found
      split at found
      · cases found
      · rename_i child there
        exact Relation.ReflTransGen.tail (hypothesis found) (List.mem_of_getElem? there)

/-- Every node of a tree is somewhere in it. -/
theorem exists_at? (below : forest.Below top node) : ∃ path, forest.at? top path = some node := by
  induction below using Relation.ReflTransGen.trans_induction_on with
  | refl node => exact ⟨[], rfl⟩
  | @single child parent isChild =>
      rcases List.getElem?_of_mem isChild with ⟨position, there⟩
      refine ⟨[position], ?_⟩
      rw [at?, there]
      rfl
  | @trans lower middle upper _ _ first second =>
      rcases first with ⟨path, found⟩
      rcases second with ⟨front, reached⟩
      refine ⟨front ++ path, ?_⟩
      clear * - found reached
      induction front generalizing upper with
      | nil =>
          cases reached
          exact found
      | cons position front hypothesis =>
          rw [at?] at reached
          rw [List.cons_append, at?]
          cases there : (forest.children upper)[position]? with
          | none =>
              rw [there] at reached
              cases reached
          | some child =>
              rw [there] at reached
              exact hypothesis reached

/-- Of two nodes above each other neither is the higher one. -/
theorem Below.antisymm (below : forest.Below top node) (above : forest.Below node top) : top = node := by
  rcases Relation.ReflTransGen.cases_head below with same | ⟨parent, isChild, path⟩
  · exact same.symm
  · exact absurd (Relation.ReflTransGen.trans path above) (not_below_child isChild)

/-- Among finitely many nodes, every node is below a root. -/
theorem exists_root (finite : forest.live.Finite) (isLive : node ∈ forest.live) :
    ∃ root, forest.IsRoot root ∧ forest.Below root node := by
  let above : α -> α -> Prop := fun upper lower => forest.Below upper lower ∧ upper ≠ lower
  have : IsStrictOrder α above := {
    irrefl := fun _ impossible => impossible.2 rfl
    trans := by
      rintro upper middle lower ⟨first, different⟩ ⟨second, _⟩
      refine ⟨Relation.ReflTransGen.trans second first, ?_⟩
      rintro rfl
      exact different (first.antisymm second) }
  have founded : forest.live.WellFoundedOn above := finite.wellFoundedOn
  refine founded.induction isLive (P := fun node => ∃ root, forest.IsRoot root ∧ forest.Below root node) ?_
  intro lower lowerLive hypothesis
  by_cases root : ∀ parent, lower ∉ forest.children parent
  · exact ⟨lower, ⟨lowerLive, root⟩, .refl⟩
  · push Not at root
    rcases root with ⟨parent, isChild⟩
    have below : forest.Below parent lower := Below.refl.step isChild
    have different : parent ≠ lower := by
      rintro rfl
      exact not_below_child isChild .refl
    rcases hypothesis parent (forest.closed isChild).2 ⟨below, different⟩ with ⟨root, isRoot, under⟩
    exact ⟨root, isRoot, under.step isChild⟩

/-- Two roots above one node are the same. -/
theorem root_unique {root other : α} (isRoot : forest.IsRoot root) (isOther : forest.IsRoot other)
    (below : forest.Below root node) (also : forest.Below other node) : root = other := by
  have top : ∀ {upper lower : α}, forest.IsRoot lower -> forest.Below upper lower -> upper = lower := by
    intro upper lower isRoot below
    rcases Relation.ReflTransGen.cases_head below with same | ⟨parent, isChild, _⟩
    · exact same.symm
    · exact absurd isChild (isRoot.2 parent)
  rcases below.comparable also with above | above
  · exact (top isRoot above).symm
  · exact top isOther above

end OrderedForest
