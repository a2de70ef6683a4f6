import CJson.HeapCreate

/-!
# Copying trees

`duplicate_rec` reads one tree and grows another one, which is new.  The
recursion follows the tree that is read; the loop over the children follows
their `next` links, which the copies do not touch.
-/

namespace CJson
namespace Heap

open OrderedForest

variable {heap after : Heap} {forest larger : OrderedForest Addr} {stage : Addr -> Stage}

theorem duplicateText_hooks (heap : Heap) (string : Option Bytes) :
    ∃ hooks copy, heap.duplicateText string = (copy, { heap with hooks := hooks }) := by
  cases string with
  | none => exact ⟨heap.hooks, some none, rfl⟩
  | some string => exact ⟨_, _, rfl⟩

theorem duplicateName_hooks (heap : Heap) (fields : Fields) :
    ∃ hooks copy, heap.duplicateName fields = (copy, { heap with hooks := hooks }) := by
  rw [duplicateName]
  split
  · exact ⟨heap.hooks, _, rfl⟩
  · exact duplicateText_hooks heap fields.string

/-- What `duplicate_rec` has done before its loop: a node of its own that has no
children yet and is no reference, or NULL, if a request is refused. -/
def MakesLeaf (heap : Heap) (forest : OrderedForest Addr) (stage : Addr -> Stage)
    (run : Nat -> Except MemoryFault (Pointer × Heap)) : Prop :=
  Settles run fun result => ∃ larger, Made heap result.2 forest larger result.1 stage ∧
    ∀ top, result.1 = some top ->
      larger.children top = [] ∧ (result.2.fieldsOf top).type_.isReference = false

theorem Represents.duplicateNode (represents : heap.Represents forest stage)
    (building : Building forest stage) {item : Addr} (isLive : item ∈ forest.live) :
    heap.MakesLeaf forest stage (fun fuel => Heap.duplicateNode fuel heap (some item)) := by
  rcases represents.newItem with ⟨larger, made, leaf⟩
  unfold Heap.duplicateNode
  rcases created : heap.newItem with ⟨newitem, current⟩
  rw [created] at made leaf
  cases newitem with
  | none => exact Settles.ok ⟨larger, made, fun _ impossible => nomatch impossible⟩
  | some top =>
      have node : Made heap current forest larger (some top) stage := made
      have itemLive := node.represents.allocated (node.grown.mono isLive)
      have empty := leaf top rfl
      have fails : ∀ {current : Heap}, Made heap current forest larger (some top) stage ->
          heap.MakesLeaf forest stage (fun fuel => do
            let final ← Heap.cjsonDelete fuel current (some top)
            .ok (none, final)) := by
        intro current made
        apply Settles.bind (made.cjsonDelete building.known)
        intro final unmade
        exact Settles.ok ⟨forest, unmade, fun _ impossible => nomatch impossible⟩
      simp only [fields_eq itemLive, Except.ok_bind]
      apply Settles.bind (Settles.of_returns (node.setFields _ (fun _ => empty)))
      rintro typed ⟨typedMade, typedFields⟩
      rcases duplicateText_hooks typed (current.fieldsOf item).valuestring with ⟨hooks, valuestring, copied⟩
      rw [copied]
      cases valuestring with
      | none => exact fails (typedMade.withHooks hooks)
      | some valuestring =>
          apply Settles.bind (Settles.of_returns ((typedMade.withHooks hooks).setFields _ (fun _ => empty)))
          rintro valued ⟨valuedMade, valuedFields⟩
          rcases duplicateName_hooks valued (current.fieldsOf item) with ⟨later, name, named⟩
          rw [named]
          cases name with
          | none => exact fails (valuedMade.withHooks later)
          | some name =>
              apply Settles.bind (Settles.of_returns
                ((valuedMade.withHooks later).setFields _ (fun _ => empty)))
              rintro final ⟨finalMade, finalFields⟩
              apply Settles.ok
              refine ⟨larger, finalMade, ?_⟩
              rintro other same
              cases same
              exact ⟨empty, by simp [finalFields, valuedFields, typedFields]⟩

/-- The nodes of a forest are still there, with the same children.  A copy is made
next to what is copied, and the lists of the latter must not change while the
recursion goes along them. -/
def Keeps (base forest : OrderedForest Addr) : Prop :=
  ∀ node ∈ base.live, node ∈ forest.live ∧ forest.children node = base.children node

theorem Keeps.grow {base : OrderedForest Addr} {result : Pointer} (keeps : Keeps base forest)
    (grown : forest.Grown larger result) : Keeps base larger := by
  intro node isLive
  rcases keeps node isLive with ⟨stays, children⟩
  exact ⟨grown.mono stays, (grown.children node stays).trans children⟩

/-- The `next` of a child, in a list in any stage. -/
theorem Represents.next_child (represents : heap.Represents forest stage) {parent child : Addr}
    {front back : List Addr} (split : forest.children parent = front ++ child :: back) :
    heap.next (some child) = .ok back.head? := by
  have isChild : child ∈ forest.children parent := by simp [split]
  have parentLive := (forest.closed isChild).2
  have run : ∃ before, heap.links.Run before (forest.children parent) none := by
    by_cases closed : stage parent = .closed
    · exact ⟨_, represents.run parent parentLive closed⟩
    · exact ⟨_, represents.openRun parent parentLive closed⟩
  rcases run with ⟨before, run⟩
  rw [split] at run
  rw [next_eq (represents.allocated (forest.closed isChild).1), run.at.2, Option.or_none]

/-- What the recursion has to do with a child, in whatever heap the siblings before it
have left.  It is the hypothesis that the induction along the child list takes from
the induction on the tree. -/
def Duplicates (base : OrderedForest Addr) (item : Addr) : Prop :=
  ∀ depth recurse {heap : Heap} {forest : OrderedForest Addr} {stage : Addr -> Stage},
    heap.Represents forest stage -> Building forest stage -> Keeps base forest ->
      heap.Makes forest stage (fun fuel => duplicateRec fuel heap (some item) depth recurse)

/-- The loop of `duplicate_rec`, if the children can be duplicated.  Either all of the
copies hang behind each other below the new node, or the new tree has been deleted and
the heap has the trees that it had. -/
theorem duplicateChildren_settles {base : OrderedForest Addr} {item top : Addr} {depth : Nat}
    (children : ∀ child ∈ base.children item, Duplicates base child) (building : Building forest stage)
    (keeps : Keeps base forest) (back : List Addr) :
    ∀ front after last larger, base.children item = front ++ back ->
      Growing heap after forest top last stage larger ->
      Settles (fun fuel => duplicateChildren fuel after (some top) back.head? last depth) fun result =>
        match result.1 with
        | none => Made heap result.2 forest forest none stage
        | some last => ∃ largest, Growing heap result.2 forest top last stage largest := by
  induction back with
  | nil =>
      intro front after last larger _ growing
      apply Settles.succ
      exact Settles.ok ⟨larger, growing⟩
  | cons child back hypothesis =>
      intro front after last larger split growing
      have isChild : child ∈ base.children item := by simp [split]
      have inner := building.grow growing.made.grown
      have kept := keeps.grow growing.made.grown
      have fails : ∀ {current : Heap}, Growing heap current forest top last stage larger ->
          Settles (fun fuel => (do
            let final ← Heap.cjsonDelete (fuel + 1) current (some top)
            .ok (none, final) : Except MemoryFault (Option Pointer × Heap))) fun result =>
              match result.1 with
              | none => Made heap result.2 forest forest none stage
              | some last => ∃ largest, Growing heap result.2 forest top last stage largest := by
        intro current growing
        apply Settles.bind (growing.delete building).pred
        intro final unmade
        exact Settles.ok unmade
      apply Settles.succ
      simp only [List.head?_cons, duplicateChildren, Option.isNone_some]
      by_cases deep : circularLimit ≤ depth
      · simp only [deep, if_true]
        exact fails growing
      · simp only [deep, if_false]
        apply Settles.bind (children child isChild (depth + 1) true growing.made.represents inner kept)
        rintro ⟨newchild, later⟩ ⟨wider, more⟩
        cases newchild with
        | none => exact fails (growing.after_none more)
        | some newchild =>
            simp only [Option.isNone_some]
            apply Settles.bind (Settles.of_returns (growing.attachChild more))
            rintro final ⟨largest, grows⟩
            have next : final.next (some child) = .ok back.head? := by
              apply @Represents.next_child final largest _ grows.made.represents item child front back
              have itemLive := (base.closed isChild).2
              rw [((keeps.grow grows.made.grown) item itemLive).2, split]
            simp only [next, Except.ok_bind]
            exact hypothesis (front ++ [child]) final (some newchild) largest (by simp [split]) grows

/-- `duplicate_rec` copies the tree under a node, or leaves the forest alone. -/
theorem duplicates (base : OrderedForest Addr) (item : Addr) :
    item ∈ base.live -> Duplicates base item := by
  induction item using base.founded.induction with
  | _ item hypothesis =>
      intro isLive depth recurse heap forest stage represents building keeps
      have itemLive := (keeps item isLive).1
      apply Settles.succ
      simp only [duplicateRec, Option.isNone_some]
      apply Settles.bind (represents.duplicateNode building itemLive).pred
      rintro ⟨newitem, created⟩ ⟨larger, made, leaf⟩
      cases newitem with
      | none => exact Settles.ok ⟨larger, made⟩
      | some top =>
          rcases leaf top rfl with ⟨empty, reference⟩
          cases recurse with
          | false => exact Settles.ok ⟨larger, made⟩
          | true =>
              have growing := Growing.start building made empty reference
              have kept := keeps.grow made.grown item isLive
              have child : created.child (some item) = .ok (base.children item).head? := by
                rw [child_eq (made.represents.allocated kept.1), ← kept.2]
                exact congrArg _ (made.represents.heads item kept.1 (building.known item))
              simp only [Option.isNone_some, child, Except.ok_bind]
              have children : ∀ child ∈ base.children item, Duplicates base child :=
                fun child isChild => hypothesis child isChild (base.closed isChild).1
              apply Settles.bind (duplicateChildren_settles children building keeps (base.children item) []
                created none larger rfl growing)
              rintro ⟨last, later⟩ outcome
              cases last with
              | none => exact Settles.ok ⟨forest, outcome⟩
              | some last =>
                  rcases outcome with ⟨largest, grown⟩
                  apply Settles.bind (Settles.of_returns (grown.close building))
                  intro final made
                  exact Settles.ok ⟨largest, made⟩

/-- `cjson_duplicate`. -/
theorem Represents.cjsonDuplicate (represents : heap.Represents forest stage)
    (building : Building forest stage) {item : Addr} (isLive : item ∈ forest.live) (recurse : Bool) :
    heap.Makes forest stage (fun fuel => Heap.cjsonDuplicate fuel heap (some item) recurse) :=
  duplicates forest item isLive 0 recurse represents building (fun _ stays => ⟨stays, rfl⟩)

end Heap
end CJson
