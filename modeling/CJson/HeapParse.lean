import CJson.HeapCopy
import CJson.ParseSafety

/-!
# Parsing into memory

What the parser reads is a tree; here `parse_value`, `parse_array` and
`parse_object` store it.  A node is linked behind its elder sibling before it is
filled, and the parent learns of its children when all of them have been stored.
-/

namespace CJson
namespace Heap

open OrderedForest

/-- A new item of the list that starts at `head`: the first one becomes the head,
the others are linked behind the current item. -/
def linkNewItem (heap : Heap) (head currentItem newItem : Pointer) : Except MemoryFault Heap :=
  if head.isNone then .ok heap else heap.suffixObject currentItem newItem

/-- What `parse_array` and `parse_object` write when the loop is over; for a
value without children there are only the fields. -/
def finishValue (heap : Heap) (item : Addr) (fields : Fields) (head last : Pointer) :
    Except MemoryFault Heap := do
  let heap ← if head.isSome then heap.setPrev head last else .ok heap
  let heap ← heap.setFields (some item) (fun _ => fields)
  heap.setChild (some item) head

mutual

/-- The writes of `parse_value`, `parse_array` and `parse_object` to `item`, when
this is what they have read. -/
def storeValue (heap : Heap) (item : Addr) : Item -> Except MemoryFault Heap
  | .mk fields child _ => do
      let (head, currentItem, heap) ← storeChildren heap none none child
      finishValue heap item { fields with type_ := { base := fields.type_.base } } head currentItem

/-- The loops of `parse_array` and `parse_object`, which put each new node behind the
one before.  Every node is allocated before the value that it holds, so a list lies in
the heap in the order of the text. -/
def storeChildren (heap : Heap) (head currentItem : Pointer) :
    List Item -> Except MemoryFault (Pointer × Pointer × Heap)
  | [] => .ok (head, currentItem, heap)
  | element :: rest => do
      let newItem := heap.unused
      let heap ← linkNewItem heap.allocate head currentItem (some newItem)
      let heap ← storeValue heap newItem element
      storeChildren heap (head.or (some newItem)) (some newItem) rest

end

/-- `cjson_parse`: the tree that the text denotes, stored at fresh addresses.  How the
hooks answer while the text is read decides whether there is a tree at all; afterwards
they may answer anything. -/
def cjsonParse (library : CLibrary) (heap : Heap) (value : Bytes) (later : Hooks) :
    Except MemoryFault (Pointer × Heap) :=
  match CJson.cjsonParse library heap.hooks value with
  | .error _ => .error .dangling
  | .ok none => .ok (none, { heap with hooks := later })
  | .ok (some tree) => do
      let item := heap.unused
      let heap ← storeValue { heap.allocate with hooks := later } item tree
      .ok (some item, heap)

variable {heap current after : Heap} {forest larger : OrderedForest Addr} {stage : Addr -> Stage}
  {top item : Addr}

/-- Only the list of `item` has changed, and it has grown.  Other nodes that were
there before have their children and their fields; the new ones are all below `item`. -/
structure Fills (current after : Heap) (forest larger : OrderedForest Addr) (item : Addr) : Prop where
  live : ∀ node ∈ forest.live, node ∈ larger.live
  grows : ∀ node child, child ∈ forest.children node -> child ∈ larger.children node
  others : ∀ node ∈ forest.live, node ≠ item ->
    larger.children node = forest.children node ∧ after.fieldsOf node = current.fieldsOf node

/-- The parser stores a tree below `top`: it may fill `item`, whose list is still
empty.  `made` says that everything so far belongs to one new tree, which can be
thrown away as a whole. -/
structure Storing (heap current : Heap) (forest : OrderedForest Addr) (top : Addr) (stage : Addr -> Stage)
    (larger : OrderedForest Addr) (item : Addr) : Prop where
  made : Made heap current forest larger (some top) stage
  new : ∀ node, node ∉ larger.live -> stage node = .closed
  inside : larger.Below top item
  leaf : (current.fieldsOf item).type_.isReference = false

/-- What storing a value does: it adds nodes to the list of `item` only, and the tree
below `top` stays one that has been made. -/
def Stores (tree : Item) : Prop :=
  ∀ {heap current : Heap} {forest larger : OrderedForest Addr} {stage : Addr -> Stage} {top item : Addr},
    Storing heap current forest top stage larger item -> larger.children item = [] ->
      stage item = .closed ->
        Returns (storeValue current item tree) fun after => ∃ largest,
          Made heap after forest largest (some top) stage ∧ Fills current after larger largest item

theorem Fills.refl (heap : Heap) (forest : OrderedForest Addr) (item : Addr) :
    Fills heap heap forest forest item :=
  ⟨fun _ => id, fun _ _ => id, fun _ _ _ => ⟨rfl, rfl⟩⟩

theorem Fills.below (fills : Fills current after forest larger item) {node : Addr}
    (below : forest.Below top node) : larger.Below top node :=
  Relation.ReflTransGen.mono (fun child parent isChild => fills.grows parent child isChild) _ _ below

/-- A child is filled after it has been linked. -/
theorem Fills.trans {later : Heap} {largest : OrderedForest Addr} {child : Addr}
    (first : Fills current after forest larger item) (second : Fills after later larger largest child)
    (same : child = item ∨ child ∉ forest.live) : Fills current later forest largest item where
  live node isLive := second.live node (first.live node isLive)
  grows node child isChild := second.grows node child (first.grows node child isChild)
  others node isLive different := by
    have notChild : node ≠ child := by
      rintro rfl
      rcases same with rfl | dead
      · exact different rfl
      · exact dead isLive
    have before := first.others node isLive different
    have afterwards := second.others node (first.live node isLive) notChild
    exact ⟨afterwards.1.trans before.1, afterwards.2.trans before.2⟩

/-- A new node behind the last child of `item`.  The node has no fields yet and no
children, and what has been stored of the other nodes stays. -/
theorem Storing.link (storing : Storing heap current forest top stage larger item)
    (loose : stage item = .loose) :
    Returns (linkNewItem current.allocate (larger.children item).head? (larger.children item).getLast?
      (some current.unused)) fun after => ∃ largest,
        Storing heap after forest top stage largest current.unused ∧
          Fills current after larger largest item ∧ largest.Below top item ∧
            after.fieldsOf item = current.fieldsOf item ∧
              largest.children item = larger.children item ++ [current.unused] ∧
                largest.children current.unused = [] := by
  have itemLive := storing.made.grown.below_live storing.inside
  have created := storing.made.represents.allocate
  have fresh := storing.made.represents.unused_not_live
  have holds := created.grown.canHold itemLive
  have opened : stage item ≠ .closed := by simp [loose]
  have leaf : (current.allocate.fieldsOf item).type_.isReference = false := by
    rw [created.fields item itemLive]
    exact storing.leaf
  have linked : Returns (linkNewItem current.allocate (larger.children item).head?
      (larger.children item).getLast? (some current.unused)) fun after =>
        current.allocate.Relinked after ∧
          after.Represents (holds.attach (larger.children item).length) stage := by
    rw [linkNewItem]
    cases isLast : (larger.children item).getLast? with
    | none =>
        have empty : larger.children item = [] := List.getLast?_eq_none_iff.mp isLast
        have ends := created.represents.roots current.unused holds.root
        rw [empty, if_pos (by rfl)]
        refine Returns.ok ⟨⟨rfl, rfl, rfl, rfl, rfl⟩, ?_⟩
        have nothing : (larger.create current.unused).children item = [] := empty
        have attached := created.represents.attachOpen holds opened ⟨rfl, rfl, rfl, rfl, rfl⟩ (fun _ _ => rfl)
          (fun known => absurd loose known) (fun _ _ _ => ⟨rfl, rfl⟩)
          (by rw [nothing]; exact ⟨ends.2, ends.1, trivial⟩) leaf
        rw [nothing] at attached
        exact attached
    | some last =>
        have inside := List.mem_of_getLast? isLast
        have head : (larger.children item).head?.isNone ≠ true := by
          simp [List.ne_nil_of_mem inside]
        rw [if_neg head]
        exact created.represents.suffixObject holds opened leaf isLast
  apply linked.mono
  rintro after ⟨relinked, represents⟩
  have made := storing.made.attach storing.inside created relinked represents
  have different : current.unused ≠ item := fun same => fresh (same ▸ itemLive)
  have appended : (holds.attach (larger.children item).length).children item =
      larger.children item ++ [current.unused] := by
    rw [CanHold.attach, children_attach_self]
    exact List.insertIdx_length_self
  have below : (holds.attach (larger.children item).length).Below top item :=
    holds.below_attach storing.inside le_rfl
  refine ⟨holds.attach (larger.children item).length, ⟨made, ?_, below.step (by rw [appended]; simp), ?_⟩,
    ?_, below, ?_, appended, ?_⟩
  · intro node dead
    exact storing.new node (fun isLive => dead (Or.inr isLive))
  · rw [relinked.fieldsOf]
    simp [Heap.allocate]
  · constructor
    · intro node isLive
      exact Or.inr isLive
    · intro node child isChild
      by_cases same : node = item
      · rw [same] at isChild ⊢
        rw [appended]
        exact List.mem_append_left _ isChild
      · rw [CanHold.attach, children_attach_of_ne same]
        exact isChild
    · intro node isLive other
      refine ⟨children_attach_of_ne other, ?_⟩
      rw [relinked.fieldsOf, created.fields node isLive]
  · rw [relinked.fieldsOf, created.fields item itemLive]
  · rw [CanHold.attach, children_attach_of_ne different, children_create, children_of_not_live fresh]

theorem storeChildren_returns {elements : List Item} (stores : ∀ element ∈ elements, Stores element)
    (loose : stage item = .loose) :
    ∀ {current : Heap} {larger : OrderedForest Addr}, Storing heap current forest top stage larger item ->
      Returns (storeChildren current (larger.children item).head? (larger.children item).getLast? elements)
        fun result => ∃ largest, Storing heap result.2.2 forest top stage largest item ∧
          Fills current result.2.2 larger largest item ∧
            result.1 = (largest.children item).head? ∧ result.2.1 = (largest.children item).getLast? := by
  induction elements with
  | nil =>
      intro current larger storing
      exact Returns.ok ⟨larger, storing, Fills.refl current larger item, rfl, rfl⟩
  | cons element rest hypothesis =>
      intro current larger storing
      have itemLive := storing.made.grown.below_live storing.inside
      have fresh := storing.made.represents.unused_not_live
      have different : item ≠ current.unused := fun same => fresh (same ▸ itemLive)
      unfold storeChildren
      apply (storing.link loose).bind
      rintro linked _ ⟨wider, child, fills, below, fields, appended, empty⟩
      have closed : stage current.unused = .closed := storing.new _ fresh
      apply (stores element List.mem_cons_self child empty closed).bind
      rintro stored _ ⟨widest, made, filled⟩
      have kept := filled.others item (fills.live item itemLive) different
      have list : widest.children item = larger.children item ++ [current.unused] := kept.1.trans appended
      have both := fills.trans filled (Or.inr fresh)
      have again : Storing heap stored forest top stage widest item := by
        refine ⟨made, ?_, filled.below below, ?_⟩
        · intro node dead
          exact storing.new node (fun isLive => dead (both.live node isLive))
        · rw [kept.2, fields]
          exact storing.leaf
      have rest := hypothesis (fun other inside => stores other (List.mem_cons_of_mem _ inside)) again
      rw [list, List.head?_append, List.getLast?_concat] at rest
      apply rest.mono
      rintro result ⟨largest, storing, fillsRest, head, last⟩
      exact ⟨largest, storing, both.trans fillsRest (Or.inl rfl), head, last⟩

theorem Storing.finish {stage' : Addr -> Stage} (storing : Storing heap current forest top stage larger item)
    {fields : Fields} (plain : fields.type_.isReference = false) (loose : stage item = .loose)
    (closes : Function.update stage item .closed = stage') :
    Returns (finishValue current item fields (larger.children item).head? (larger.children item).getLast?)
      fun after => Made heap after forest larger (some top) stage' ∧
        ∀ node, node ≠ item -> after.fieldsOf node = current.fieldsOf node := by
  have itemLive := storing.made.grown.below_live storing.inside
  have itemAllocated := storing.made.represents.allocated itemLive
  have filled : (current.withFields item fields).Represents larger stage :=
    storing.made.represents.withFields (by simp [plain])
  have run := storing.made.represents.openRun item itemLive (by simp [loose])
  have finished : ∀ links : Links Addr,
      (∀ node, node ∉ larger.children item -> links.next node = current.links.next node ∧
        links.prev node = current.links.prev node) ->
      links.WellLinked (larger.children item).head? (larger.children item) ->
      Made heap (((current.withFields item fields).withChild item
        (larger.children item).head?).withLinks links) forest larger (some top) stage' := by
    intro links same linked
    refine ⟨storing.made.grown, ?_, ?_⟩
    · rw [← closes]
      apply filled.close _ _ same _ (by simp [plain])
      · exact ⟨rfl, rfl, rfl, rfl, rfl⟩
      · intro node different
        simp [different]
      · simpa using linked
    · intro node isLive
      have different : node ≠ item := by
        rintro rfl
        exact storing.made.grown.new top node rfl storing.inside isLive
      simpa [different] using storing.made.fields node isLive
  cases children : larger.children item with
  | nil =>
      have runs : finishValue current item fields none none =
          .ok ((current.withFields item fields).withChild item none) := by
        simp [finishValue, itemAllocated]
      refine Returns.of_eq runs ⟨?_, fun node different => by simp [different]⟩
      have made := finished current.links (fun _ _ => ⟨rfl, rfl⟩) (by rw [children]; exact Links.wellLinked_nil)
      rw [children] at made
      exact made
  | cons first rest =>
      have firstIn : first ∈ larger.children item := by simp [children]
      have firstLive := storing.made.represents.allocated (larger.closed firstIn).1
      have distinct := larger.distinct item
      rw [children] at run distinct
      have runs : finishValue current item fields (some first) (first :: rest).getLast? =
          .ok (((current.withFields item fields).withChild item (some first)).withLinks
            (current.links.setPrev first (first :: rest).getLast?)) := by
        simp [finishValue, itemAllocated, firstLive]
        rfl
      refine Returns.of_eq runs ⟨?_, fun node different => by simp [different]⟩
      have made := finished (current.links.setPrev first (first :: rest).getLast?) (by
          intro node notIn
          have notFirst : node ≠ first := fun same => notIn (same ▸ firstIn)
          simp [notFirst])
        (by rw [children]; exact ⟨rfl, run.setFirst distinct _⟩)
      rw [children] at made
      exact made

theorem stores (tree : Item) : Stores tree := by
  induction tree using Item.induct with
  | node fields child headPrev hypothesis =>
      intro heap current forest larger stage top item storing empty closed
      have itemLive := storing.made.grown.below_live storing.inside
      have loose : Storing heap current forest top (Function.update stage item .loose) larger item := by
        refine ⟨storing.made.restage (storing.made.represents.loosen empty), ?_, storing.inside, storing.leaf⟩
        intro node dead
        rw [Function.update_of_ne (fun same : node = item => dead (same ▸ itemLive))]
        exact storing.new node dead
      have children := storeChildren_returns hypothesis (Function.update_self _ _ _) loose
      rw [empty] at children
      rw [storeValue]
      apply children.bind
      rintro ⟨head, last, stored⟩ _ ⟨largest, storing, fills, isHead, isLast⟩
      dsimp only at isHead isLast storing fills ⊢
      rw [isHead, isLast]
      have closes : Function.update (Function.update stage item .loose) item .closed = stage := by
        rw [Function.update_idem, Function.update_eq_self_iff, closed]
      apply (storing.finish rfl (Function.update_self _ _ _) closes).mono
      rintro after ⟨made, others⟩
      refine ⟨largest, made, fills.live, fills.grows, ?_⟩
      intro node isLive different
      rw [others node different]
      exact fills.others node isLive different

/-- `cjson_parse` adds a tree, or leaves the forest as it is. -/
theorem Represents.cjsonParse {library : CLibrary} (consumes : library.ConsumesAtMost)
    (represents : heap.Represents forest stage) (new : ∀ node, node ∉ forest.live -> stage node = .closed)
    (value : Bytes) (later : Hooks) :
    Returns (Heap.cjsonParse library heap value later) fun result =>
      ∃ larger, Made heap result.2 forest larger result.1 stage := by
  have text : CString.text value ++ [0] ≠ [] := by simp
  have length : (CString.text value).length + 1 = (CString.text value ++ [0]).length := by simp
  rcases cjsonParseWithLengthOpts_returns consumes heap.hooks text false with ⟨outcome, parsed, _⟩
  have parse : CJson.cjsonParse library heap.hooks value = .ok outcome.item := by
    rw [CJson.cjsonParse, cjsonParseWithOpts, length, parsed, Except.ok_bind]
  rw [Heap.cjsonParse, parse]
  cases outcome.item with
  | none =>
      exact Returns.ok ⟨forest, Grown.refl forest, represents.withHooks later, fun _ _ => rfl⟩
  | some tree =>
      have made := represents.allocate.withHooks later
      have fresh := represents.unused_not_live
      have storing : Storing heap { heap.allocate with hooks := later } forest heap.unused stage
          (forest.create heap.unused) heap.unused :=
        ⟨made, fun node dead => new node (fun isLive => dead (Or.inr isLive)), .refl,
          by simp [Heap.allocate]⟩
      have empty : (forest.create heap.unused).children heap.unused = [] := by
        rw [children_create, children_of_not_live fresh]
      apply (stores tree storing empty (new _ fresh)).bind
      rintro after _ ⟨largest, made, _⟩
      exact Returns.ok ⟨largest, made⟩

end Heap
end CJson
