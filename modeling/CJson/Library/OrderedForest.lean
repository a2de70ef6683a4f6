import Mathlib.Data.List.InsertIdx
import Mathlib.Data.List.Nodup
import Mathlib.Data.Set.Basic
import Mathlib.Logic.Function.Basic
import Mathlib.Logic.Relation

/-!
# Forests with ordered children

A forest is a set of nodes, each with a list of children.  A node is the child
of one node at most and occurs once in its list, and no path leads down forever.
What makes it useful as the meaning of a linked structure is that the few ways
of changing it (a new node, a root put under another node, a child taken out, a
tree thrown away) keep these properties, so that a state without them cannot be
built.
-/

universe u

/-- Finitely branching trees, side by side.  Nodes have one parent at most, and no way
down is infinite; the fields carry the proofs, so that a change of a forest is only
defined where it leaves one. -/
structure OrderedForest (α : Type u) where
  live : Set α
  children : α -> List α
  closed : ∀ {child parent}, child ∈ children parent -> child ∈ live ∧ parent ∈ live
  distinct : ∀ parent, (children parent).Nodup
  unique : ∀ {child parent other}, child ∈ children parent -> child ∈ children other -> parent = other
  founded : WellFounded (fun child parent => child ∈ children parent)

namespace OrderedForest

variable {α : Type u}

/-- `node` is in the tree under `top`: the way up from it leads there.  Every node is
below itself. -/
def Below (forest : OrderedForest α) (top node : α) : Prop :=
  Relation.ReflTransGen (fun child parent => child ∈ forest.children parent) node top

/-- A node that is the child of none. -/
def IsRoot (forest : OrderedForest α) (node : α) : Prop :=
  node ∈ forest.live ∧ ∀ parent, node ∉ forest.children parent

variable {forest : OrderedForest α} {top node parent child other : α}

theorem Below.refl : forest.Below node node := Relation.ReflTransGen.refl

theorem Below.step (below : forest.Below top parent) (isChild : child ∈ forest.children parent) :
    forest.Below top child :=
  Relation.ReflTransGen.head isChild below

theorem Below.cases (below : forest.Below top node) :
    node = top ∨ ∃ child ∈ forest.children top, forest.Below child node := by
  rcases Relation.ReflTransGen.cases_tail below with same | ⟨child, path, isChild⟩
  · exact Or.inl same.symm
  · exact Or.inr ⟨child, isChild, path⟩

/-- Nothing is below its own child. -/
theorem not_below_child (isChild : child ∈ forest.children parent) : ¬ forest.Below child parent := by
  intro below
  have cycle := Relation.TransGen.head' isChild below
  exact forest.founded.transGen.asymmetric _ _ cycle cycle

/-- Two trees that share a node are one inside the other. -/
theorem Below.comparable (left : forest.Below top node) (right : forest.Below other node) :
    forest.Below other top ∨ forest.Below top other :=
  Relation.ReflTransGen.total_of_right_unique (fun _ _ _ first second => forest.unique first second)
    left right

/-- The trees under two children of a node are apart. -/
theorem siblings_apart {first second : α} (firstChild : first ∈ forest.children parent)
    (secondChild : second ∈ forest.children parent) (left : forest.Below first node)
    (right : forest.Below second node) : first = second := by
  have apart : ∀ {upper lower : α}, upper ∈ forest.children parent ->
      lower ∈ forest.children parent -> forest.Below upper lower -> lower = upper := by
    intro upper lower upperChild lowerChild below
    rcases Relation.ReflTransGen.cases_head below with same | ⟨other, isChild, path⟩
    · exact same
    · cases forest.unique lowerChild isChild
      exact absurd path (not_below_child upperChild)
  rcases left.comparable right with below | below
  · exact apart secondChild firstChild below
  · exact (apart firstChild secondChild below).symm

theorem Below.live (below : forest.Below top node) (isLive : top ∈ forest.live) : node ∈ forest.live := by
  rcases Relation.ReflTransGen.cases_head below with same | ⟨parent, isChild, _⟩
  · rw [same]
    exact isLive
  · exact (forest.closed isChild).1

/-- A tree is the same in a forest that has the same lists in it. -/
theorem below_congr {larger : OrderedForest α}
    (same : ∀ node, forest.Below top node -> larger.children node = forest.children node) :
    larger.Below top node ↔ forest.Below top node := by
  constructor
  · intro below
    induction below using Relation.ReflTransGen.head_induction_on with
    | refl => exact .refl
    | head isChild _ above =>
        rw [same _ above] at isChild
        exact above.step isChild
  · intro below
    induction below using Relation.ReflTransGen.head_induction_on with
    | refl => exact .refl
    | head isChild path above =>
        rw [← same _ path] at isChild
        exact Below.step above isChild

theorem children_of_not_live (dead : node ∉ forest.live) : forest.children node = [] := by
  cases found : forest.children node with
  | nil => rfl
  | cons child rest =>
      have isChild : child ∈ forest.children node := by simp [found]
      exact absurd (forest.closed isChild).2 dead

/-! ## The four changes -/

/-- The forest without nodes. -/
def empty : OrderedForest α where
  live := ∅
  children _ := []
  closed impossible := nomatch impossible
  distinct _ := List.nodup_nil
  unique impossible := nomatch impossible
  founded := ⟨fun _ => ⟨_, fun _ impossible => nomatch impossible⟩⟩

/-- A new node. -/
def create (forest : OrderedForest α) (node : α) : OrderedForest α where
  live := insert node forest.live
  children := forest.children
  closed isChild := ⟨Or.inr (forest.closed isChild).1, Or.inr (forest.closed isChild).2⟩
  distinct := forest.distinct
  unique := forest.unique
  founded := forest.founded

@[simp] theorem mem_live_create :
    other ∈ (forest.create node).live ↔ other = node ∨ other ∈ forest.live := Iff.rfl

@[simp] theorem children_create : (forest.create node).children = forest.children := rfl

open Classical in
/-- A tree is thrown away. -/
noncomputable def remove (forest : OrderedForest α) (top : α) (root : forest.IsRoot top) :
    OrderedForest α where
  live := { node ∈ forest.live | ¬ forest.Below top node }
  children parent := if forest.Below top parent then [] else forest.children parent
  closed := by
    intro child parent isChild
    split at isChild
    · cases isChild
    · rename_i outside
      refine ⟨⟨(forest.closed isChild).1, ?_⟩, (forest.closed isChild).2, outside⟩
      intro below
      rcases Relation.ReflTransGen.cases_head below with rfl | ⟨other, otherChild, path⟩
      · exact root.2 _ isChild
      · cases forest.unique isChild otherChild
        exact outside path
  distinct parent := by
    split
    · exact List.nodup_nil
    · exact forest.distinct parent
  unique := by
    intro child parent other first second
    split at first
    · cases first
    · split at second
      · cases second
      · exact forest.unique first second
  founded := by
    apply Subrelation.wf _ forest.founded
    intro child parent isChild
    split at isChild
    · cases isChild
    · exact isChild

theorem children_remove {removedRoot : forest.IsRoot top} (outside : ¬ forest.Below top node) :
    (forest.remove top removedRoot).children node = forest.children node :=
  if_neg outside

theorem mem_live_remove {removedRoot : forest.IsRoot top} :
    node ∈ (forest.remove top removedRoot).live ↔ node ∈ forest.live ∧ ¬ forest.Below top node := Iff.rfl

/-- The roots that are left were roots. -/
theorem isRoot_of_remove {removedRoot : forest.IsRoot top}
    (root : (forest.remove top removedRoot).IsRoot node) : forest.IsRoot node ∧ node ≠ top := by
  rcases root with ⟨⟨isLive, outside⟩, noParent⟩
  refine ⟨⟨isLive, ?_⟩, fun same => outside (same ▸ .refl)⟩
  intro parent isChild
  by_cases below : forest.Below top parent
  · exact outside (below.step isChild)
  · apply noParent parent
    rw [children_remove below]
    exact isChild

/-- A root and a node that is not below it: the root can become a child.  These are
the conditions under which a list may take a node without closing a cycle. -/
structure CanHold (forest : OrderedForest α) (parent child : α) : Prop where
  root : forest.IsRoot child
  isLive : parent ∈ forest.live
  apart : ¬ forest.Below child parent

theorem CanHold.ne (holds : forest.CanHold parent child) : child ≠ parent := by
  rintro rfl
  exact holds.apart .refl

/-- The second forest is the first one with a new tree, or the same forest.  Trees
that were there before are untouched. -/
structure Grown (forest larger : OrderedForest α) (result : Option α) : Prop where
  live : ∀ node, node ∈ larger.live ↔
    node ∈ forest.live ∨ ∃ top, result = some top ∧ larger.Below top node
  children : ∀ node ∈ forest.live, larger.children node = forest.children node
  root : ∀ top, result = some top -> larger.IsRoot top
  new : ∀ top node, result = some top -> larger.Below top node -> node ∉ forest.live

/-- A forest is its nodes and their lists. -/
theorem eq_of_children {larger : OrderedForest α} (live : ∀ node, node ∈ larger.live ↔ node ∈ forest.live)
    (children : ∀ node ∈ forest.live, larger.children node = forest.children node) :
    larger = forest := by
  have sameLive : larger.live = forest.live := Set.ext live
  have sameChildren : larger.children = forest.children := by
    funext node
    by_cases isLive : node ∈ forest.live
    · exact children node isLive
    · rw [children_of_not_live isLive, children_of_not_live (fun other => isLive ((live node).mp other))]
  cases forest
  cases larger
  cases sameLive
  cases sameChildren
  rfl

namespace Grown

variable {larger last : OrderedForest α}

theorem refl (forest : OrderedForest α) : forest.Grown forest none where
  live node := by simp
  children _ _ := rfl
  root _ impossible := nomatch impossible
  new _ _ impossible := nomatch impossible

theorem eq_of_none (grown : forest.Grown larger none) : larger = forest := by
  apply eq_of_children _ grown.children
  intro node
  rw [grown.live]
  simp

theorem mono {result : Option α} (grown : forest.Grown larger result) {node : α}
    (isLive : node ∈ forest.live) : node ∈ larger.live :=
  (grown.live node).mpr (Or.inl isLive)

/-- One node is a tree. -/
theorem create {node : α} (fresh : node ∉ forest.live) : forest.Grown (forest.create node) (some node) := by
  have alone : ∀ lower, (forest.create node).Below node lower ↔ lower = node := by
    intro lower
    constructor
    · intro below
      rcases below.cases with same | ⟨child, isChild, _⟩
      · exact same
      · rw [children_create, children_of_not_live fresh] at isChild
        cases isChild
    · rintro rfl
      exact .refl
  constructor
  · intro other
    simp [alone, or_comm]
  · intro _ _
    rfl
  · rintro top same
    cases same
    exact ⟨Or.inl rfl, fun parent isChild => fresh (forest.closed isChild).1⟩
  · rintro top lower same below
    cases same
    rw [(alone lower).mp below]
    exact fresh

/-- The new tree is thrown away again. -/
theorem remove (grown : forest.Grown larger (some top)) :
    larger.remove top (grown.root top rfl) = forest := by
  apply eq_of_children
  · intro node
    rw [mem_live_remove, grown.live]
    constructor
    · rintro ⟨old | ⟨other, same, below⟩, outside⟩
      · exact old
      · cases same
        exact absurd below outside
    · intro old
      exact ⟨Or.inl old, fun below => grown.new top node rfl below old⟩
  · intro node old
    rw [children_remove (fun below => grown.new top node rfl below old)]
    exact grown.children node old

/-- A new tree can be put under any node that was there before. -/
theorem canHold (more : forest.Grown larger (some child)) (isLive : parent ∈ forest.live) :
    larger.CanHold parent child where
  root := more.root child rfl
  isLive := more.mono isLive
  apart below := more.new child parent rfl below isLive

theorem below_live (grown : forest.Grown larger (some top)) (below : larger.Below top node) :
    node ∈ larger.live :=
  below.live (grown.root top rfl).1

end Grown

theorem insertIdx_append_length (front back : List α) (node : α) :
    (front ++ back).insertIdx front.length node = front ++ node :: back := by
  induction front with
  | nil => simp
  | cons first front hypothesis =>
      rw [List.length_cons, List.cons_append, List.insertIdx_succ_cons, hypothesis, List.cons_append]

variable [DecidableEq α]

theorem erase_of_split {nodes front back : List α} {node : α} (distinct : nodes.Nodup)
    (split : nodes = front ++ node :: back) : nodes.erase node = front ++ back := by
  rw [split] at distinct ⊢
  have outside : node ∉ front := fun inside =>
    (List.nodup_append.mp distinct).2.2 node inside node List.mem_cons_self rfl
  rw [List.erase_append_right _ outside, List.erase_cons_head]

/-- A child is taken out of its list. -/
def detach (forest : OrderedForest α) (child : α) : OrderedForest α where
  live := forest.live
  children parent := (forest.children parent).erase child
  closed isChild := forest.closed (List.mem_of_mem_erase isChild)
  distinct parent := (forest.distinct parent).erase child
  unique first second := forest.unique (List.mem_of_mem_erase first) (List.mem_of_mem_erase second)
  founded := Subrelation.wf (fun isChild => List.mem_of_mem_erase isChild) forest.founded

theorem mem_children_attach {position : Nat}
    (inside : node ∈ Function.update forest.children parent
      ((forest.children parent).insertIdx position child) other) :
    node ∈ forest.children other ∨ (node = child ∧ other = parent) := by
  rw [Function.update_apply] at inside
  by_cases same : other = parent
  · rw [if_pos same] at inside
    rcases List.eq_or_mem_of_mem_insertIdx inside with isNew | old
    · exact Or.inr ⟨isNew, same⟩
    · exact Or.inl (same ▸ old)
  · rw [if_neg same] at inside
    exact Or.inl inside

/-- A root is put under a node that is not below it. -/
def attach (forest : OrderedForest α) (parent child : α) (position : Nat) (root : forest.IsRoot child)
    (isLive : parent ∈ forest.live) (apart : ¬ forest.Below child parent) : OrderedForest α where
  live := forest.live
  children := Function.update forest.children parent ((forest.children parent).insertIdx position child)
  closed isChild := by
    rcases mem_children_attach isChild with old | ⟨rfl, rfl⟩
    · exact forest.closed old
    · exact ⟨root.1, isLive⟩
  distinct other := by
    rw [Function.update_apply]
    by_cases same : other = parent
    · rw [if_pos same]
      by_cases fits : position ≤ (forest.children parent).length
      · apply (List.perm_insertIdx child _ fits).nodup_iff.mpr
        exact List.nodup_cons.mpr ⟨root.2 parent, forest.distinct parent⟩
      · rw [List.insertIdx_of_length_lt (by omega)]
        exact forest.distinct parent
    · rw [if_neg same]
      exact forest.distinct other
  unique first second := by
    rcases mem_children_attach first with firstOld | ⟨rfl, rfl⟩
    · rcases mem_children_attach second with secondOld | ⟨rfl, rfl⟩
      · exact forest.unique firstOld secondOld
      · exact absurd firstOld (root.2 _)
    · rcases mem_children_attach second with secondOld | ⟨_, rfl⟩
      · exact absurd secondOld (root.2 _)
      · rfl
  founded := by
    -- the tree of the new child has no new edge inside, and everything else leads down into it
    have inside : ∀ node, forest.Below child node -> Acc (fun node other =>
        node ∈ Function.update forest.children parent
          ((forest.children parent).insertIdx position child) other) node := by
      intro node
      induction node using forest.founded.induction with
      | _ node hypothesis =>
          intro below
          constructor
          intro lower isChild
          rcases mem_children_attach isChild with old | ⟨rfl, rfl⟩
          · exact hypothesis lower old (Below.step below old)
          · exact absurd below apart
    constructor
    intro node
    induction node using forest.founded.induction with
    | _ node hypothesis =>
        constructor
        intro lower isChild
        rcases mem_children_attach isChild with old | ⟨rfl, _⟩
        · exact hypothesis lower old
        · exact inside _ .refl

/-! ## What the changes do -/

section Changes

variable {position : Nat} {root : forest.IsRoot child} {isLive : parent ∈ forest.live}
  {apart : ¬ forest.Below child parent}

@[simp] theorem live_detach : (forest.detach child).live = forest.live := rfl

@[simp] theorem children_detach :
    (forest.detach child).children parent = (forest.children parent).erase child := rfl

@[simp] theorem live_attach : (forest.attach parent child position root isLive apart).live = forest.live := rfl

theorem children_attach_self : (forest.attach parent child position root isLive apart).children parent =
    (forest.children parent).insertIdx position child :=
  Function.update_self _ _ _

theorem children_attach_of_ne (different : other ≠ parent) :
    (forest.attach parent child position root isLive apart).children other = forest.children other :=
  Function.update_of_ne different _ _

/-- Taking a child out of its list leaves the other lists alone. -/
theorem children_detach_of_ne (isChild : child ∈ forest.children parent) (different : other ≠ parent) :
    (forest.detach child).children other = forest.children other :=
  List.erase_of_not_mem (fun inside => different (forest.unique inside isChild))

/-- A child that is taken out is a root. -/
theorem isRoot_detach (isChild : child ∈ forest.children parent) : (forest.detach child).IsRoot child := by
  refine ⟨(forest.closed isChild).1, ?_⟩
  intro other inside
  exact (List.Nodup.not_mem_erase (forest.distinct other)) inside

end Changes

namespace CanHold

section Attach

variable {position : Nat} (holds : forest.CanHold parent child)

include holds

/-- The forest with a root put under another node. -/
def attach (position : Nat) : OrderedForest α :=
  forest.attach parent child position holds.root holds.isLive holds.apart

theorem mem_children (fits : position ≤ (forest.children parent).length) :
    node ∈ (holds.attach position).children parent ↔ node = child ∨ node ∈ forest.children parent := by
  rw [attach, children_attach_self]
  exact List.mem_insertIdx fits

/-- The roots left when a root has been put under another node. -/
theorem isRoot (fits : position ≤ (forest.children parent).length)
    (root : (holds.attach position).IsRoot node) : forest.IsRoot node ∧ node ≠ child := by
  have notInParent := root.2 parent
  rw [holds.mem_children fits] at notInParent
  refine ⟨⟨root.1, ?_⟩, fun same => notInParent (Or.inl same)⟩
  intro other inside
  by_cases same : other = parent
  · exact notInParent (Or.inr (same ▸ inside))
  · apply root.2 other
    rw [attach, children_attach_of_ne same]
    exact inside

/-- What was below a node stays below it. -/
theorem below_attach (below : forest.Below top node) (fits : position ≤ (forest.children parent).length) :
    (holds.attach position).Below top node := by
  apply Relation.ReflTransGen.mono _ _ _ below
  intro lower upper isChild
  by_cases same : upper = parent
  · rw [same] at isChild ⊢
    exact (holds.mem_children fits).mpr (Or.inr isChild)
  · rw [attach, children_attach_of_ne same]
    exact isChild

end Attach

/-- The forest with a child taken out can hold whatever the forest can. -/
theorem detach (holds : forest.CanHold parent child) (item : α) :
    (forest.detach item).CanHold parent child where
  root := ⟨holds.root.1, fun other inside => holds.root.2 other (List.mem_of_mem_erase inside)⟩
  isLive := holds.isLive
  apart below := by
    apply holds.apart
    exact Relation.ReflTransGen.mono (fun _ _ inside => List.mem_of_mem_erase inside) _ _ below

/-- The forest with a child replaced; the child becomes a root. -/
def exchange (holds : forest.CanHold parent child) (item : α) : OrderedForest α :=
  (holds.detach item).attach ((forest.children parent).idxOf item)

theorem exchange_fits {item : α} (isChild : item ∈ forest.children parent) :
    (forest.children parent).idxOf item ≤ ((forest.detach item).children parent).length := by
  have inside := List.idxOf_lt_length_of_mem isChild
  rw [children_detach, List.length_erase_of_mem isChild]
  omega

variable {item : α} (holds : forest.CanHold parent child)

theorem children_exchange {front back : List α}
    (split : forest.children parent = front ++ item :: back) :
    (holds.exchange item).children parent = front ++ child :: back := by
  have distinct := forest.distinct parent
  have position : (forest.children parent).idxOf item = front.length := by
    have outside : item ∉ front := by
      intro inside
      rw [split] at distinct
      exact (List.nodup_append.mp distinct).2.2 item inside item List.mem_cons_self rfl
    rw [split, List.idxOf_append_of_notMem outside, List.idxOf_cons_self, Nat.add_zero]
  rw [exchange, attach, children_attach_self, position, children_detach,
    erase_of_split distinct split, insertIdx_append_length]

theorem children_exchange_first {back : List α} (split : forest.children parent = item :: back) :
    (holds.exchange item).children parent = child :: back := by
  rw [← List.nil_append (item :: back)] at split
  exact holds.children_exchange split

theorem children_exchange_of_ne (isChild : item ∈ forest.children parent) {other : α}
    (different : other ≠ parent) : (holds.exchange item).children other = forest.children other := by
  rw [exchange, attach, children_attach_of_ne different, children_detach_of_ne isChild different]

/-- The child that has been replaced is a root. -/
theorem isRoot_exchange (isChild : item ∈ forest.children parent) :
    (holds.exchange item).IsRoot item := by
  refine ⟨(forest.closed isChild).1, ?_⟩
  intro other
  by_cases same : other = parent
  · rw [same]
    intro inside
    rcases ((holds.detach item).mem_children (exchange_fits isChild)).mp inside with rfl | stays
    · exact holds.root.2 parent isChild
    · exact (forest.distinct parent).not_mem_erase stays
  · rw [holds.children_exchange_of_ne isChild same]
    exact fun inside => same (forest.unique inside isChild)

end CanHold

/-- A new tree grows when another one is put under one of its nodes. -/
theorem Grown.attach {larger last : OrderedForest α} {position : Nat}
    (grown : forest.Grown larger (some top)) (inside : larger.Below top parent)
    (more : larger.Grown last (some child)) (fits : position ≤ (last.children parent).length) :
    forest.Grown ((more.canHold (grown.below_live inside)).attach position) (some top) := by
  have parentOld := grown.below_live inside
  have topOld : top ∈ larger.live := (grown.root top rfl).1
  have holds := more.canHold parentOld
  have old : ∀ {node}, node ∈ larger.live -> last.children node = larger.children node := more.children _
  have stays : ∀ {node}, larger.Below top node -> (holds.attach position).Below top node := by
    intro node below
    apply holds.below_attach _ fits
    apply Relation.ReflTransGen.mono _ _ _ below
    intro lower upper isChild
    rw [old (larger.closed isChild).2]
    exact isChild
  -- what is below the root now
  have down : ∀ {node}, (holds.attach position).Below top node ->
      larger.Below top node ∨ last.Below child node := by
    intro node below
    induction below using Relation.ReflTransGen.head_induction_on with
    | refl => exact Or.inl .refl
    | head isChild _ above =>
        rcases mem_children_attach isChild with already | ⟨rfl, _⟩
        · rcases above with inTree | inChild
          · rw [old (inTree.live topOld)] at already
            exact Or.inl (inTree.step already)
          · exact Or.inr (inChild.step already)
        · exact Or.inr .refl
  have up : ∀ {node}, last.Below child node -> (holds.attach position).Below top node := by
    intro node inChild
    have isChild : child ∈ (holds.attach position).children parent :=
      (holds.mem_children fits).mpr (Or.inl rfl)
    exact (holds.below_attach inChild fits).trans ((stays inside).step isChild)
  constructor
  · intro node
    rw [show node ∈ (holds.attach position).live ↔ node ∈ last.live from Iff.rfl, more.live, grown.live]
    constructor
    · rintro ((before | ⟨other, same, below⟩) | ⟨other, same, below⟩)
      · exact Or.inl before
      · cases same
        exact Or.inr ⟨_, rfl, stays below⟩
      · cases same
        exact Or.inr ⟨_, rfl, up below⟩
    · rintro (before | ⟨other, same, below⟩)
      · exact Or.inl (Or.inl before)
      · cases same
        rcases down below with inTree | inChild
        · exact Or.inl (Or.inr ⟨_, rfl, inTree⟩)
        · exact Or.inr ⟨_, rfl, inChild⟩
  · intro node before
    have different : node ≠ parent := by
      rintro rfl
      exact grown.new top node rfl inside before
    rw [CanHold.attach, children_attach_of_ne different, old (grown.mono before), grown.children node before]
  · rintro other same
    cases same
    refine ⟨more.mono topOld, ?_⟩
    intro upper isChild
    rcases mem_children_attach isChild with already | ⟨same, _⟩
    · by_cases upperOld : upper ∈ larger.live
      · rw [old upperOld] at already
        exact (grown.root top rfl).2 upper already
      · rcases (more.live upper).mp (last.closed already).2 with before | ⟨other, same, below⟩
        · exact upperOld before
        · cases same
          exact more.new _ _ rfl (below.step already) topOld
    · exact more.new child child rfl .refl (same ▸ topOld)
  · rintro other node same below before
    cases same
    rcases down below with inTree | inChild
    · exact grown.new _ node rfl inTree before
    · exact more.new _ node rfl inChild (grown.mono before)

end OrderedForest
