import CJson.HeapFields
import CJson.Library.ForestPaths
import CJson.Library.Rows
import CJson.Patch

/-!
# The trees that nodes stand for

The pointers draw lists of nodes, and the patch functions have been modelled on
trees.  A node stands for the tree of its fields and of what its children stand
for.  When a list is edited, the trees that contain it are rewritten at the node
whose list it is, and no other tree changes.
-/

namespace CJson

open CString

namespace Heap

open OrderedForest

/-- A node stands for a tree.  Its fields are those of the root, and its children
stand for the children, one by one.  The first child's `prev` names the last one,
where there is a first child. -/
inductive Shows (fieldsOf : Addr -> Fields) (forest : OrderedForest Addr) : Addr -> Item -> Prop
  | node {top : Addr} {child : List Item} {headPrev : HeadPrev}
      (linked : child ≠ [] -> headPrev = .at (child.length - 1))
      (each : List.Forall₂ (Shows fieldsOf forest) (forest.children top) child) :
      Shows fieldsOf forest top (.mk (fieldsOf top) child headPrev)

variable {fieldsOf later : Addr -> Fields} {forest forest' : OrderedForest Addr} {top parent : Addr} {item : Item}

theorem shows_iff : Shows fieldsOf forest top item ↔ item.fields = fieldsOf top ∧
    (item.child ≠ [] -> item.headPrev = .at (item.child.length - 1)) ∧
      List.Forall₂ (Shows fieldsOf forest) (forest.children top) item.child := by
  constructor
  · rintro ⟨linked, each⟩
    exact ⟨rfl, linked, each⟩
  · rintro ⟨fields, linked, each⟩
    have shows := Shows.node linked each
    rwa [← fields, Item.eta] at shows

/-- Every node stands for a tree. -/
theorem exists_shows (fieldsOf : Addr -> Fields) (forest : OrderedForest Addr) (top : Addr) :
    ∃ item, Shows fieldsOf forest top item := by
  induction top using forest.founded.induction with
  | _ top hypothesis =>
      have row : ∀ nodes : List Addr, (∀ node ∈ nodes, ∃ item, Shows fieldsOf forest node item) ->
          ∃ child, List.Forall₂ (Shows fieldsOf forest) nodes child := by
        intro nodes each
        induction nodes with
        | nil => exact ⟨[], .nil⟩
        | cons node rest rows =>
            rcases each node List.mem_cons_self with ⟨item, shows⟩
            rcases rows (fun other inside => each other (List.mem_cons_of_mem _ inside)) with ⟨child, others⟩
            exact ⟨item :: child, .cons shows others⟩
      rcases row (forest.children top) hypothesis with ⟨child, each⟩
      exact ⟨.mk (fieldsOf top) child (.at (child.length - 1)), .node (fun _ => rfl) each⟩

/-- The trees of nodes are well linked. -/
theorem Shows.wellLinked (shows : Shows fieldsOf forest top item) : item.WellLinked := by
  induction item using Item.induct generalizing top with
  | node fields child headPrev hypothesis =>
      rcases shows with ⟨linked, each⟩
      refine .mk linked ?_
      intro item inside
      rcases List.getElem_of_mem inside with ⟨position, short, rfl⟩
      have there : position < (forest.children top).length := by rwa [each.length_eq]
      exact hypothesis _ inside (each.get there short)

/-- What is below a node determines what it stands for: the lists there, and the
fields. -/
theorem Shows.congr (shows : Shows fieldsOf forest top item)
    (same : ∀ node, forest.Below top node ->
      forest'.children node = forest.children node ∧ later node = fieldsOf node) :
    Shows later forest' top item := by
  induction item using Item.induct generalizing top with
  | node fields child headPrev hypothesis =>
      rcases shows with ⟨linked, each⟩
      rw [← (same top .refl).2]
      refine .node linked ?_
      rw [(same top .refl).1, List.forall₂_iff_get]
      refine ⟨each.length_eq, ?_⟩
      intro position there short
      refine hypothesis _ (List.getElem_mem short) (each.get there short) ?_
      intro node below
      exact same node (Relation.ReflTransGen.tail below (List.getElem_mem there))

/-- Where a node is in a tree, its own tree is. -/
theorem Shows.at? {path : Item.Path} {place : Addr} (shows : Shows fieldsOf forest top item)
    (leads : forest.at? top path = some place) :
    ∃ own, item.at? path = some own ∧ Shows fieldsOf forest place own := by
  induction path generalizing top item with
  | nil =>
      cases leads
      exact ⟨item, rfl, shows⟩
  | cons position path hypothesis =>
      rw [OrderedForest.at?] at leads
      split at leads
      · cases leads
      · rename_i child there
        rcases (shows_iff.mp shows).2.2.getElem? there with ⟨next, isNext, showsNext⟩
        rw [Item.at?, isNext]
        exact hypothesis showsNext leads

/-! ## Edited lists -/

/-- What is gone are whole trees of children.  With a child everything below it goes,
and nothing that is not below a child. -/
def Subtrees (forest : OrderedForest Addr) (parent : Addr) (gone : Addr -> Prop) : Prop :=
  ∀ node, gone node -> ∃ item ∈ forest.children parent,
    forest.Below item node ∧ ∀ lower, forest.Below item lower -> gone lower

section Editing

variable {list : List Addr} {gone : Addr -> Prop} {child : List Item} {headPrev : HeadPrev}

/-- The trees that do not contain the list are as they were, since none of their nodes
has lost or won a child. -/
theorem Edits.elsewhere (edits : Edits forest forest' parent list gone) (subtrees : Subtrees forest parent gone)
    (same : ∀ node ∈ forest.live, node ≠ parent -> later node = fieldsOf node) (isLive : top ∈ forest'.live)
    (outside : ¬ forest.Below top parent) (shows : Shows fieldsOf forest top item) :
    Shows later forest' top item := by
  rcases (edits.live top).mp isLive with ⟨wasLive, alive⟩
  apply shows.congr
  intro node below
  have different : node ≠ parent := by
    rintro rfl
    exact outside below
  refine ⟨edits.others node different ?_, same node (below.live wasLive) different⟩
  intro dead
  rcases subtrees node dead with ⟨child, isChild, under, whole⟩
  rcases below.comparable under with above | above
  · exact alive (whole top above)
  · rcases Relation.ReflTransGen.cases_head above with rfl | ⟨other, isOther, path⟩
    · exact alive (whole _ .refl)
    · cases forest.unique isChild isOther
      exact outside path

/-- The trees that contain it are rewritten at the node whose list it is.  Along the
way to that node only the list changes in which the way goes on, so the new tree is
the old one modified at the path. -/
theorem Edits.within (edits : Edits forest forest' parent list gone) (subtrees : Subtrees forest parent gone)
    (same : ∀ node ∈ forest.live, node ≠ parent -> later node = fieldsOf node)
    (apart : ∀ child ∈ list, ¬ forest.Below child parent) (linked : child ≠ [] -> headPrev = .at (child.length - 1))
    (each : List.Forall₂ (Shows fieldsOf forest) list child) {path : Item.Path}
    (leads : forest.at? top path = some parent) (shows : Shows fieldsOf forest top item) :
    ∃ final, item.modify (fun _ => some (.mk (later parent) child headPrev)) path = some final ∧
      Shows later forest' top final := by
  have outside : ∀ node list, forest'.children node = list -> ∀ child ∈ list, ¬ forest.Below child parent ->
      ∀ item, Shows fieldsOf forest child item -> Shows later forest' child item := by
    rintro node _ rfl child isChild apart item shows
    exact edits.elsewhere subtrees same (forest'.closed isChild).1 apart shows
  induction path generalizing top item with
  | nil =>
      -- the place itself: its children are where they were, or come from other trees
      cases leads
      refine ⟨_, rfl, shows_iff.mpr ⟨rfl, linked, ?_⟩⟩
      rw [edits.list]
      exact each.imp_mem fun child inside => outside parent list edits.list child inside (apart child inside)
  | cons position path hypothesis =>
      have inside := below_of_at? leads
      rw [OrderedForest.at?] at leads
      cases there : (forest.children top)[position]? with
      | none =>
          rw [there] at leads
          cases leads
      | some lower =>
          rw [there] at leads
          have isChild := List.mem_of_getElem? there
          have below := below_of_at? leads
          have different : top ≠ parent := by
            rintro rfl
            exact not_below_child isChild below
          have alive : ¬ gone top := by
            intro dead
            rcases subtrees top dead with ⟨other, isOther, under, _⟩
            exact not_below_child isOther (Relation.ReflTransGen.trans inside under)
          have kept := edits.others top different alive
          rcases shows_iff.mp shows with ⟨fields, closed, children⟩
          rcases children.getElem? there with ⟨next, isNext, showsNext⟩
          rcases hypothesis leads showsNext with ⟨changed, changes, shown⟩
          refine ⟨item.withChildren (item.child.set position changed) item.headPrev, ?_,
            shows_iff.mpr ⟨?_, by simpa using closed, ?_⟩⟩
          · rw [Item.modify, isNext]
            simp only [changes, Option.map_some]
          · rw [Item.withChildren_fields, fields, same top (forest.closed isChild).2 different]
          · rw [kept]
            apply children.exchange (forest.distinct top) there shown
            intro other isOther apart
            apply outside top _ kept other isOther
            exact fun under => apart (siblings_apart isOther isChild under below)

end Editing

end Heap
end CJson
