import CJson.Reachable

/-!
# Every call acts on lists

Each function of the public interface refines its effect on the forest, and so
every state that calls lead to shows a forest whose lists are well linked.
-/

namespace CJson

open CString

namespace Heap

open OrderedForest

variable {library : CLibrary} {heap : Heap} {forest : OrderedForest Addr}

/-- A call ends, well linked, and with its effect.  Every large enough budget for the
recursions gives the same result. -/
def Behaves (library : CLibrary) (heap : Heap) (forest : OrderedForest Addr) (operation : Operation) : Prop :=
  Settles (fun fuel => operation.run library fuel heap) fun result =>
    ∃ forest', result.2.Draws forest' ∧ operation.Effect heap forest forest' result.1

theorem building (forest : OrderedForest Addr) : Building forest (fun _ => .closed) :=
  ⟨fun _ => by simp, fun _ _ => rfl⟩

/-! ## Constructors -/

/-- A constructor adds a tree or nothing. -/
theorem Makes.returnNode {run : Nat -> Except MemoryFault (Pointer × Heap)}
    (makes : heap.Makes forest (fun _ => .closed) run) :
    Settles (fun fuel => Heap.returnNode (run fuel)) fun result =>
      ∃ forest', result.2.Draws forest' ∧ ∃ pointer, result.1 = .node pointer ∧ forest.Grown forest' pointer := by
  unfold Heap.returnNode
  apply Settles.bind makes
  rintro ⟨pointer, after⟩ ⟨larger, made⟩
  exact Settles.ok ⟨larger, made.represents, pointer, rfl, made.grown⟩

theorem Constructs.returnNode {run : Nat -> Heap -> Except MemoryFault (Pointer × Heap)}
    (constructs : Constructs run) (draws : heap.Draws forest) :
    Settles (fun fuel => Heap.returnNode (run fuel heap)) fun result =>
      ∃ forest', result.2.Draws forest' ∧ ∃ pointer, result.1 = .node pointer ∧ forest.Grown forest' pointer :=
  Makes.returnNode (constructs draws (building forest))

theorem createDoubleArray_constructs (numbers : List Binary64) :
    Constructs (fun fuel heap => cjsonCreateDoubleArray fuel heap numbers) :=
  createNumberArray_constructs (fun _ => createNode_constructs _) numbers

theorem createStringArray_constructs (strings : List (Option Bytes)) :
    Constructs (fun fuel heap => cjsonCreateStringArray fuel heap strings) :=
  createNumberArray_constructs (fun string : Option Bytes => createText_constructs .string string) strings

theorem duplicate_behaves (draws : heap.Draws forest) {item : Pointer} (valid : heap.Valid item)
    (recurse : Bool) : heap.Behaves library forest (.duplicate item recurse) := by
  cases item with
  | none =>
      apply Settles.succ
      exact Settles.ok ⟨forest, draws, rfl, rfl⟩
  | some node =>
      exact Makes.returnNode
        (draws.cjsonDuplicate (building forest) ((draws.live node).mp (valid node rfl)) recurse)

/-! ## Adding -/

theorem CanHold.edits {parent child : Addr} (holds : forest.CanHold parent child) (position : Nat) :
    Edits forest (holds.attach position) parent ((forest.children parent).insertIdx position child)
      (fun _ => False) where
  live node := by simp [CanHold.attach]
  list := by rw [CanHold.attach, children_attach_self]
  others node different _ := children_attach_of_ne different

theorem addItemToArray_behaves (draws : heap.Draws forest) {array item : Pointer}
    (promised : (Operation.addItemToArray array item).Promised heap)
    (proper : (Operation.addItemToArray array item).Proper heap) :
    heap.Behaves library forest (.addItemToArray array item) := by
  rcases promised with ⟨validArray, _, holds⟩
  simp only [Behaves, Operation.run, Operation.Effect]
  cases item with
  | none =>
      have runs : heap.addItemToArray array none = .ok (false, heap) := by simp [Heap.addItemToArray]
      rw [runs]
      refine Settles.ok ⟨forest, draws, ?_⟩
      cases array <;> exact ⟨rfl, rfl⟩
  | some node =>
      cases array with
      | none => exact Settles.ok ⟨forest, draws, rfl, rfl⟩
      | some parent =>
          have canHold := draws.canHold validArray holds
          apply Settles.bind (Settles.of_returns
            (draws.addItemToArray canHold rfl (proper parent rfl)))
          rintro ⟨success, after⟩ ⟨succeeds, _, represents⟩
          have edits := CanHold.edits canHold (forest.children parent).length
          rw [List.insertIdx_length_self] at edits
          exact Settles.ok ⟨_, represents, congrArg _ succeeds, edits⟩

/-- Other fields than the flag for references do not matter to the links, so the
forest is the one that it was. -/
theorem Represents.rename (draws : heap.Draws forest) {node : Addr} (isLive : node ∈ forest.live)
    (change : Fields -> Fields)
    (same : ∀ fields, (change fields).type_.isReference = fields.type_.isReference) :
    Returns (heap.setFields (some node) change) fun after => after.Draws forest ∧
      ∀ other, other ≠ node -> after.fieldsOf other = heap.fieldsOf other := by
  refine Returns.of_eq (setFields_eq (draws.allocated isLive) change) ⟨?_, ?_⟩
  · apply draws.withFields
    rw [same]
    exact draws.leaves node isLive
  · intro other different
    simp [different]

/-- A named item behind the last member.  The item has its name before it is linked,
so a refusal of the name leaves both trees alone. -/
theorem nameAndAdd_settles (draws : heap.Draws forest) {parent node : Addr}
    (holds : forest.CanHold parent node) (leaf : (heap.fieldsOf parent).type_.isReference = false)
    {change : Fields -> Fields}
    (same : ∀ fields, (change fields).type_.isReference = fields.type_.isReference) :
    Settles (fun _ : Nat => returnFlag (do
        let heap ← heap.setFields (some node) change
        heap.addItemToArray (some parent) (some node))) fun result => ∃ forest', result.2.Draws forest' ∧
      Adds forest forest' (some parent) (some node) (fun list node => list ++ [node]) result.1 := by
  apply Settles.of_returns
  rcases draws.rename holds.root.1 change same with ⟨named, runs, stays, others⟩
  rw [runs, Except.ok_bind]
  rw [← others parent holds.ne.symm] at leaf
  apply (stays.addItemToArray holds rfl leaf).bind
  rintro ⟨success, after⟩ _ ⟨succeeds, _, represents⟩
  have edits := CanHold.edits holds (forest.children parent).length
  rw [List.insertIdx_length_self] at edits
  exact Returns.ok ⟨_, represents, congrArg _ succeeds, edits⟩

/-- A call that has its name: the old name of the item is given back, unless it is a
constant, and the item goes behind the last member. -/
theorem addItemToObject_eq {later : Heap} {object item : Addr} {name : Name} {constantKey : Bool} {newKey : Bytes}
    (different : object ≠ item)
    (copied : (if constantKey = true then (some name.bytes, heap) else heap.strdup name.bytes) =
      (some newKey, later))
    (live : later.allocated item = true) (notOwned : constantKey = true -> later.NotOwned (some name) item) :
    heap.addItemToObject (some object) (some name) (some item) constantKey = (do
      let heap ← (later.record (later.fieldsOf item).nameReleases).setFields (some item) (fun fields =>
        { fields with
          string := some newKey
          type_ := { fields.type_ with stringIsConst := constantKey } })
      heap.addItemToArray (some object) (some item)) := by
  have alive : ¬ (constantKey = true ∧ name.keyOf = some item ∧ (later.fieldsOf item).ownsName = true) := by
    rintro ⟨isConst, same, owns⟩
    rw [notOwned isConst name rfl same] at owns
    cases owns
  simp only [Heap.addItemToObject, Option.isNone_some, Bool.false_eq_true, Option.some.injEq, different,
    or_self, if_false, copied, fields_eq live, Except.ok_bind, alive]

theorem addItemToObject_behaves (draws : heap.Draws forest) {object item : Pointer} {string : Option Name}
    {constantKey : Bool} (promised : (Operation.addItemToObject object string item constantKey).Promised heap)
    (proper : (Operation.addItemToObject object string item constantKey).Proper heap) :
    heap.Behaves library forest (.addItemToObject object string item constantKey) := by
  rcases promised with ⟨validObject, _, holds, notOwned⟩
  cases string with
  | none => exact Settles.ok ⟨forest, draws, rfl, rfl⟩
  | some string =>
      simp only [Behaves, Operation.run, Operation.Effect]
      by_cases missing : object.isNone = true ∨ item.isNone = true
      · have runs : heap.addItemToObject object (some string) item constantKey = .ok (false, heap) := by
          rcases missing with missing | missing <;> simp [Heap.addItemToObject, missing]
        rw [runs]
        refine Settles.ok ⟨forest, draws, ?_⟩
        have adds : Adds forest forest object item (fun list node => list ++ [node]) (.flag false) := by
          cases object <;> cases item <;> first | exact ⟨rfl, rfl⟩ | simp at missing
        split
        · exact adds
        · exact ⟨rfl, rfl⟩
      · cases object with
        | none => exact absurd (Or.inl rfl) missing
        | some parent =>
            cases item with
            | none => exact absurd (Or.inr rfl) missing
            | some node =>
                have canHold := draws.canHold validObject holds
                have different : parent ≠ node := canHold.ne.symm
                have live := draws.allocated canHold.root.1
                have leaf := proper parent rfl
                cases constantKey with
                | true =>
                    rw [addItemToObject_eq different (if_pos rfl) live (fun isConst => notOwned isConst node)]
                    simp only [Bool.true_or, if_true]
                    exact nameAndAdd_settles (draws.record _) canHold leaf (fun _ => rfl)
                | false =>
                    rcases strdup_cases heap string.bytes with ⟨hooks, copy, refused | copied⟩
                    · have denied : heap.copyGranted string.bytes = false := by simp [copyGranted, refused]
                      simp only [Heap.addItemToObject, Option.isNone_some, Option.some.injEq, different,
                        Bool.false_or, denied, refused]
                      exact Settles.ok ⟨forest, draws.withHooks hooks, rfl, rfl⟩
                    · have granted : heap.copyGranted string.bytes = true := by simp [copyGranted, copied]
                      rw [addItemToObject_eq different ((if_neg Bool.false_ne_true).trans copied) live
                        (fun impossible => absurd impossible Bool.false_ne_true)]
                      simp only [Bool.false_or, granted, if_true]
                      exact nameAndAdd_settles ((draws.withHooks hooks).record _) canHold leaf (fun _ => rfl)

theorem insertItemInArray_behaves (draws : heap.Draws forest) {array newitem : Pointer} {which : Int}
    (promised : (Operation.insertItemInArray array which newitem).Promised heap)
    (proper : (Operation.insertItemInArray array which newitem).Proper heap) :
    heap.Behaves library forest (.insertItemInArray array which newitem) := by
  rcases promised with ⟨validArray, _, holds⟩
  simp only [Behaves, Operation.run, Operation.Effect]
  by_cases negative : which < 0
  · have runs : heap.cjsonInsertItemInArray array which newitem = .ok (false, heap) := by
      simp [Heap.cjsonInsertItemInArray, negative]
    rw [runs]
    refine Settles.ok ⟨forest, draws, ?_⟩
    simp [negative]
  · obtain ⟨index, rfl⟩ := Int.eq_ofNat_of_zero_le (Int.not_lt.mp negative)
    simp only [negative, if_false]
    cases newitem with
    | none =>
        have runs : heap.cjsonInsertItemInArray array index none = .ok (false, heap) := by
          simp [Heap.cjsonInsertItemInArray]
        rw [runs]
        refine Settles.ok ⟨forest, draws, ?_⟩
        cases array <;> exact ⟨rfl, rfl⟩
    | some node =>
        cases array with
        | none =>
            have runs : heap.cjsonInsertItemInArray none index (some node) = .ok (false, heap) := by
              simp [Heap.cjsonInsertItemInArray, Heap.getArrayItem, Heap.addItemToArray]
            rw [runs]
            exact Settles.ok ⟨forest, draws, rfl, rfl⟩
        | some parent =>
            have canHold := draws.canHold validArray holds
            apply Settles.bind (Settles.of_returns
              (draws.cjsonInsertItemInArray canHold rfl (proper parent rfl) index))
            rintro ⟨success, after⟩ ⟨succeeds, _, represents⟩
            exact Settles.ok ⟨_, represents, congrArg _ succeeds, CanHold.edits canHold _⟩

/-! ## Lookup -/

theorem getObjectItemLoop_settles {before : Pointer} {nodes : List Addr}
    (run : heap.links.Run before nodes none) (live : ∀ node ∈ nodes, heap.allocated node = true)
    (name : Bytes) (caseSensitive : Bool) :
    Settles (fun fuel => heap.getObjectItemLoop name caseSensitive fuel nodes.head?) fun found =>
      found = findMember heap.fieldsOf name caseSensitive nodes := by
  induction nodes generalizing before with
  | nil =>
      apply Settles.succ
      exact Settles.ok rfl
  | cons node rest hypothesis =>
      have nodeLive := live node List.mem_cons_self
      have next : heap.links.next node = rest.head? := by rw [run.2.1, Option.or_none]
      have later := hypothesis run.2.2 (fun other inside => live other (List.mem_cons_of_mem _ inside))
      apply Settles.succ
      simp only [List.head?_cons, getObjectItemLoop, Option.isNone_some, fields_eq nodeLive, next_eq nodeLive,
        next, Except.ok_bind, findMember]
      cases named : (heap.fieldsOf node).string with
      | none =>
          cases caseSensitive with
          | true => exact Settles.ok rfl
          | false => exact later
      | some string =>
          by_cases same : compareBy (caseFold caseSensitive) string name = 0
          · simp only [same, if_true]
            exact Settles.ok rfl
          · simp only [same, if_false]
            exact later

/-- `get_object_item` finds the member under a name. -/
theorem Represents.getObjectItem (draws : heap.Draws forest) {object : Addr} (isLive : object ∈ forest.live)
    (string : Option Bytes) (caseSensitive : Bool) :
    Settles (fun fuel => Heap.getObjectItem fuel heap (some object) string caseSensitive) fun found =>
      found = heap.underName forest string caseSensitive object := by
  cases string with
  | none => exact Settles.ok rfl
  | some name =>
      simp only [Heap.getObjectItem, child_eq (draws.allocated isLive), Except.ok_bind,
        draws.heads object isLive (by simp)]
      exact getObjectItemLoop_settles (draws.run object isLive rfl)
        (fun node inside => draws.allocated (forest.closed inside).1) name caseSensitive

theorem findMember_mem {fieldsOf : Addr -> Fields} {name : Bytes} {caseSensitive : Bool} {nodes : List Addr}
    {node : Addr} (found : findMember fieldsOf name caseSensitive nodes = some node) : node ∈ nodes := by
  induction nodes with
  | nil => cases found
  | cons first rest hypothesis =>
      unfold findMember at found
      split at found
      · split at found
        · cases found
        · exact List.mem_cons_of_mem _ (hypothesis found)
      · split at found
        · cases found
          exact List.mem_cons_self
        · exact List.mem_cons_of_mem _ (hypothesis found)

theorem underName_mem {container : Pointer} {string : Option Bytes} {caseSensitive : Bool}
    (object node : Addr) (_ : container = some object)
    (found : heap.underName forest string caseSensitive object = some node) :
    node ∈ forest.children object := by
  cases string with
  | none => cases found
  | some name => exact findMember_mem found

theorem atIndex_mem {container : Pointer} {which : Int} (array node : Addr)
    (_ : container = some array) (found : atIndex forest which array = some node) :
    node ∈ forest.children array := by
  unfold atIndex at found
  split at found
  · cases found
  · exact List.mem_of_getElem? found

/-! ## Detaching -/

theorem edits_detach {parent item : Addr} (isChild : item ∈ forest.children parent) :
    Edits forest (forest.detach item) parent ((forest.children parent).erase item) (fun _ => False) where
  live node := by simp
  list := children_detach
  others node different _ := children_detach_of_ne isChild different

/-- Throwing away a tree after an edit somewhere else.  The two together are one edit,
whose lost nodes are those of the tree. -/
theorem edits_remove {forest' : OrderedForest Addr} {parent item : Addr} {list : List Addr}
    (edits : Edits forest forest' parent list (fun _ => False)) (root : forest'.IsRoot item)
    (apart : ¬ forest.Below item parent) :
    Edits forest (forest'.remove item root) parent list (forest.Below item) := by
  have same : ∀ node, forest'.Below item node ↔ forest.Below item node := by
    intro node
    apply below_congr
    intro lower below
    apply edits.others lower _ id
    rintro rfl
    exact apart below
  constructor
  · intro node
    rw [mem_live_remove, same, edits.live]
    simp
  · rw [children_remove (fun below => apart ((same parent).mp below))]
    exact edits.list
  · intro node different alive
    rw [children_remove (fun below => alive ((same node).mp below))]
    exact edits.others node different id

/-- The forest without what has been found. -/
def taken (forest : OrderedForest Addr) : Option Addr -> OrderedForest Addr
  | none => forest
  | some item => forest.detach item

theorem takes_taken {parent : Addr} {find : Addr -> Option Addr}
    (isChild : ∀ item, find parent = some item -> item ∈ forest.children parent) :
    Takes forest (taken forest (find parent)) (some parent) find (.node (find parent)) := by
  unfold Takes
  cases found : find parent with
  | none => simp [found, taken]
  | some item => simpa [found, taken] using edits_detach (isChild item found)

/-- Taking out what has been found in the list. -/
theorem Represents.takes (draws : heap.Draws forest) {parent : Addr} {found : Pointer}
    (isChild : ∀ item, found = some item -> item ∈ forest.children parent) :
    Returns (heap.cjsonDetachItemViaPointer (some parent) found) fun result =>
      result.1 = found ∧ result.2.Draws (taken forest found) := by
  cases found with
  | none => exact Returns.ok ⟨rfl, draws⟩
  | some item =>
      apply (draws.cjsonDetachItemViaPointer rfl (isChild item rfl)).mono
      rintro result ⟨same, _, represents⟩
      exact ⟨same, represents⟩

/-- What a detach function with a search does: it takes out what the search has found,
if anything. -/
def Detaching (forest : OrderedForest Addr) (container : Pointer) (find : Addr -> Option Addr)
    (result : Pointer × Heap) : Prop :=
  match container with
  | none => result.1 = none ∧ result.2.Draws forest
  | some parent => result.1 = find parent ∧ result.2.Draws (taken forest (find parent))

section Search

variable {container : Pointer} {find : Addr -> Option Addr} {search : Nat -> Except MemoryFault Pointer}
  (isChild : ∀ parent item, container = some parent -> find parent = some item ->
    item ∈ forest.children parent)

include isChild

theorem Represents.detaching (draws : heap.Draws forest)
    (searches : Settles search fun found => found = container.bind find) :
    Settles (fun fuel => search fuel >>= heap.cjsonDetachItemViaPointer container)
      (Detaching forest container find) := by
  apply Settles.bind searches
  rintro found rfl
  cases container with
  | none => exact Settles.ok ⟨rfl, draws⟩
  | some parent => exact Settles.of_returns (draws.takes (fun item => isChild parent item rfl))

theorem Detaching.takes {result : Pointer × Heap} (detaching : Detaching forest container find result) :
    ∃ forest', result.2.Draws forest' ∧ Takes forest forest' container find (.node result.1) := by
  cases container with
  | none => exact ⟨forest, detaching.2, congrArg _ detaching.1, rfl⟩
  | some parent =>
      refine ⟨_, detaching.2, ?_⟩
      rw [show result.1 = find parent from detaching.1]
      exact takes_taken (fun item => isChild parent item rfl)

/-- The same for what is deleted behind it. -/
theorem Detaching.drops {result : Pointer × Heap} (detaching : Detaching forest container find result) :
    Settles (fun fuel => Heap.cjsonDelete fuel (result.2.recordChild container result.1) result.1) fun after =>
      ∃ forest', after.Draws forest' ∧ Drops forest forest' container find .nothing := by
  rcases result with ⟨pointer, after⟩
  cases container with
  | none =>
      rcases detaching with ⟨rfl, draws⟩
      apply Settles.succ
      exact Settles.ok ⟨forest, draws, rfl, rfl⟩
  | some parent =>
      rcases detaching with ⟨rfl, draws⟩
      dsimp only at draws ⊢
      cases found : find parent with
      | none =>
          rw [found] at draws
          apply Settles.succ
          refine Settles.ok ⟨forest, draws, rfl, ?_⟩
          simp only [found]
      | some item =>
          rw [found] at draws
          have inside := isChild parent item rfl found
          have root := isRoot_detach inside
          apply ((draws.record _).cjsonDelete (fun _ => by simp) root).mono
          rintro final ⟨represents, _⟩
          refine ⟨_, represents, rfl, ?_⟩
          simp only [found]
          exact edits_remove (edits_detach inside) root (fun below => not_below_child inside below)

end Search

/-! ## Replacing -/

theorem CanHold.edits_exchange {parent item replacement : Addr} (holds : forest.CanHold parent replacement)
    (isChild : item ∈ forest.children parent) :
    Edits forest (holds.exchange item) parent
      ((forest.children parent).set ((forest.children parent).idxOf item) replacement)
      (fun _ => False) where
  live node := by simp [CanHold.exchange, CanHold.attach]
  list := by
    rcases List.append_of_mem isChild with ⟨front, back, split⟩
    have distinct := forest.distinct parent
    have outside : item ∉ front := by
      intro inside
      rw [split] at distinct
      exact (List.nodup_append.mp distinct).2.2 item inside item List.mem_cons_self rfl
    rw [holds.children_exchange split, split, List.idxOf_append_of_notMem outside, List.idxOf_cons_self,
      Nat.add_zero, List.set_append_right _ _ le_rfl, Nat.sub_self, List.set_cons_zero]
  others node different _ := holds.children_exchange_of_ne isChild different

/-- Replacing what has been found in the list, and deleting the tree of what was
replaced. -/
theorem Represents.replaces (draws : heap.Draws forest) {parent replacement found : Pointer}
    (live : ∀ upper, parent = some upper -> upper ∈ forest.live)
    (holds : ∀ upper new, parent = some upper -> replacement = some new -> forest.CanHold upper new)
    (isChild : ∀ upper item, parent = some upper -> found = some item -> item ∈ forest.children upper) :
    Settles (fun fuel => returnFlag (Heap.cjsonReplaceItemViaPointer fuel heap parent found replacement))
      fun result => ∃ forest', result.2.Draws forest' ∧
        Replaces forest forest' parent (fun _ => found) replacement result.1 := by
  cases parent with
  | none => exact Settles.ok ⟨forest, draws, rfl, rfl⟩
  | some parent =>
      have parentLive := draws.allocated (live parent rfl)
      by_cases missing : replacement.isNone = true ∨ found.isNone = true
      · have runs : ∀ fuel, Heap.cjsonReplaceItemViaPointer fuel heap (some parent) found replacement =
            .ok (false, heap) := by
          intro fuel
          rcases missing with missing | missing <;>
            simp [Heap.cjsonReplaceItemViaPointer, parentLive, missing]
        refine Settles.congr (Settles.ok ?_) (fun fuel => by rw [runs fuel]; rfl)
        refine ⟨forest, draws, ?_⟩
        cases replacement <;> cases found <;> first | exact ⟨rfl, rfl⟩ | simp at missing
      · cases replacement with
        | none => exact absurd (Or.inl rfl) missing
        | some new =>
            cases found with
            | none => exact absurd (Or.inr rfl) missing
            | some item =>
                have inside := isChild parent item rfl rfl
                have canHold := holds parent new rfl rfl
                apply Settles.bind
                  (draws.cjsonReplaceItemViaPointer canHold rfl (fun _ => by simp) inside)
                rintro ⟨success, after⟩ ⟨succeeds, _, represents⟩
                refine Settles.ok ⟨_, represents, congrArg _ succeeds, ?_⟩
                exact edits_remove (CanHold.edits_exchange canHold inside) (canHold.isRoot_exchange inside)
                  (fun below => not_below_child inside below)

theorem Replaces.congr {forest' : OrderedForest Addr} {container replacement : Pointer} {outcome : Outcome}
    {find other : Addr -> Option Addr}
    (replaces : Replaces forest forest' container find replacement outcome)
    (same : ∀ parent, container = some parent -> other parent = find parent) :
    Replaces forest forest' container other replacement outcome := by
  cases container with
  | none => exact replaces
  | some parent =>
      cases replacement with
      | none => exact replaces
      | some new =>
          unfold Replaces at replaces ⊢
          simp only [same parent rfl]
          exact replaces

/-- Replacing what a search has found.  If the search has found nothing, the call
reports failure and the replacement stays a root. -/
theorem Represents.searchAndReplace (draws : heap.Draws forest) {container replacement : Pointer}
    {find : Addr -> Option Addr} {search : Nat -> Except MemoryFault Pointer}
    (live : ∀ upper, container = some upper -> upper ∈ forest.live)
    (holds : ∀ upper new, container = some upper -> replacement = some new -> forest.CanHold upper new)
    (isChild : ∀ parent item, container = some parent -> find parent = some item ->
      item ∈ forest.children parent)
    (searches : Settles search fun found => found = container.bind find) :
    Settles (fun fuel => returnFlag (search fuel >>= fun found =>
        Heap.cjsonReplaceItemViaPointer fuel heap container found replacement)) fun result =>
      ∃ forest', result.2.Draws forest' ∧
        Replaces forest forest' container find replacement result.1 := by
  have order : ∀ fuel, returnFlag (search fuel >>= fun found =>
      Heap.cjsonReplaceItemViaPointer fuel heap container found replacement) =
        search fuel >>= fun found =>
          returnFlag (Heap.cjsonReplaceItemViaPointer fuel heap container found replacement) := by
    intro fuel
    cases search fuel <;> rfl
  apply Settles.congr (Settles.bind searches _) order
  rintro found rfl
  have child : ∀ upper item, container = some upper -> container.bind find = some item ->
      item ∈ forest.children upper := by
    rintro upper item rfl same
    exact isChild upper item rfl same
  apply (draws.replaces live holds child).mono
  rintro result ⟨forest', represents, replaces⟩
  refine ⟨forest', represents, replaces.congr ?_⟩
  rintro parent rfl
  rfl

theorem findMember_congr {fieldsOf other : Addr -> Fields} {name : Bytes} {caseSensitive : Bool}
    {nodes : List Addr} (same : ∀ node ∈ nodes, other node = fieldsOf node) :
    findMember other name caseSensitive nodes = findMember fieldsOf name caseSensitive nodes := by
  induction nodes with
  | nil => rfl
  | cons node rest hypothesis =>
      unfold findMember
      rw [same node List.mem_cons_self,
        hypothesis (fun later inside => same later (List.mem_cons_of_mem _ inside))]

theorem underName_congr {after : Heap} {string : Option Bytes} {caseSensitive : Bool} {object : Addr}
    (same : ∀ node ∈ forest.children object, after.fieldsOf node = heap.fieldsOf node) :
    after.underName forest string caseSensitive object =
      heap.underName forest string caseSensitive object := by
  cases string with
  | none => rfl
  | some name => exact findMember_congr same

theorem Represents.valid_live (draws : heap.Draws forest) {pointer : Pointer} (valid : heap.Valid pointer)
    (node : Addr) (same : pointer = some node) : node ∈ forest.live :=
  (draws.live node).mp (valid node same)

theorem Represents.mayHold (draws : heap.Draws forest) {container item : Pointer}
    (valid : heap.Valid container) (holds : heap.MayHold container item) (upper new : Addr)
    (isContainer : container = some upper) (isItem : item = some new) : forest.CanHold upper new := by
  cases isContainer
  cases isItem
  exact draws.canHold valid holds

theorem search_object (draws : heap.Draws forest) {object : Pointer}
    (live : ∀ node, object = some node -> node ∈ forest.live) (string : Option Bytes) (caseSensitive : Bool) :
    Settles (fun fuel => Heap.getObjectItem fuel heap object string caseSensitive) fun found =>
      found = object.bind (heap.underName forest string caseSensitive) := by
  cases object with
  | none => exact Settles.ok rfl
  | some node => exact draws.getObjectItem (live node rfl) string caseSensitive

theorem search_array (draws : heap.Draws forest) {array : Pointer}
    (live : ∀ node, array = some node -> node ∈ forest.live) {which : Int} (index : ¬ which < 0) :
    Settles (fun _ : Nat => heap.getArrayItem array which.toNat) fun found =>
      found = array.bind (atIndex forest which) := by
  cases array with
  | none => exact Settles.ok rfl
  | some node =>
      rw [draws.getArrayItem (live node rfl) rfl]
      apply Settles.ok
      simp [atIndex, index]

/-- A replacement that is given another name than its own gives that one back first,
and is then renamed and put in the place of what the lookup finds. -/
theorem replaceItemInObject_eq {object : Pointer} {replacement : Addr} {name : Name} {caseSensitive : Bool}
    (live : heap.allocated replacement = true) (notOwned : heap.NotOwned (some name) replacement) (fuel : Nat) :
    Heap.replaceItemInObject fuel heap object (some name) (some replacement) caseSensitive =
      renameAndReplace fuel (heap.record (heap.fieldsOf replacement).nameReleases) object name.bytes
        (some replacement) caseSensitive := by
  have alive : ¬ (name.keyOf = some replacement ∧ (heap.fieldsOf replacement).ownsName = true) := by
    rintro ⟨same, owns⟩
    rw [notOwned name rfl same] at owns
    cases owns
  simp only [Heap.replaceItemInObject, Option.isNone_some, Bool.false_eq_true, if_false, fields_eq live,
    Except.ok_bind, alive]

/-- A replacement that is given the name it owns is asked for what it has just freed.
This is why the calls that act on lists exclude it. -/
theorem replaceItemInObject_dangles {object : Pointer} {replacement : Addr} {name : Name} {caseSensitive : Bool}
    (live : heap.allocated replacement = true) (own : name.keyOf = some replacement)
    (owns : (heap.fieldsOf replacement).ownsName = true) (fuel : Nat) :
    Heap.replaceItemInObject fuel heap object (some name) (some replacement) caseSensitive = .error .dangling := by
  have freed : name.keyOf = some replacement ∧ (heap.fieldsOf replacement).ownsName = true := ⟨own, owns⟩
  simp only [Heap.replaceItemInObject, Option.isNone_some, Bool.false_eq_true, if_false, fields_eq live,
    Except.ok_bind, freed, and_self, if_true]

theorem replaceItemInObject_behaves (draws : heap.Draws forest) {object replacement : Pointer}
    {string : Option Name} {caseSensitive : Bool}
    (promised : (Operation.replaceItemInObject object string replacement caseSensitive).Promised heap) :
    heap.Behaves library forest (.replaceItemInObject object string replacement caseSensitive) := by
  rcases promised with ⟨valid, validReplacement, holds, notOwned⟩
  cases string with
  | none => exact Settles.ok ⟨forest, draws, rfl, rfl⟩
  | some string =>
      simp only [Behaves, Operation.run, Operation.Effect]
      cases replacement with
      | none =>
          have runs : ∀ fuel, Heap.replaceItemInObject fuel heap object (some string) none caseSensitive =
              .ok (false, heap) := by
            intro fuel
            simp [Heap.replaceItemInObject]
          refine Settles.congr (Settles.ok ?_) (fun fuel => by rw [runs fuel]; rfl)
          refine ⟨forest, draws, ?_⟩
          split
          · cases object <;> exact ⟨rfl, rfl⟩
          · exact ⟨rfl, rfl⟩
      | some new =>
          have newLive := draws.valid_live validReplacement new rfl
          simp only [replaceItemInObject_eq (draws.allocated newLive) (notOwned new rfl)]
          have recorded := draws.record (heap.fieldsOf new).nameReleases
          rcases strdup_cases (heap.record (heap.fieldsOf new).nameReleases) string.bytes with
            ⟨hooks, copy, refused | copied⟩
          · have denied : heap.copyGranted string.bytes = false := congrArg (fun run => run.1.isSome) refused
            rcases (recorded.withHooks hooks).rename newLive (fun fields => { fields with string := none })
              (fun _ => rfl) with ⟨renamed, runs, stays, _⟩
            simp only [renameAndReplace, refused, denied, runs, Except.ok_bind]
            exact Settles.ok ⟨forest, stays, rfl, rfl⟩
          · have granted : heap.copyGranted string.bytes = true := congrArg (fun run => run.1.isSome) copied
            rcases (recorded.withHooks hooks).rename newLive (fun fields => { fields with
              string := some copy
              type_ := { fields.type_ with stringIsConst := false } }) (fun _ => rfl) with
              ⟨renamed, runs, stays, others⟩
            simp only [renameAndReplace, copied, granted, runs, Except.ok_bind, if_true]
            have live := draws.valid_live valid
            have canHold := draws.mayHold valid holds
            apply (stays.searchAndReplace live canHold underName_mem
              (search_object stays live (some string.bytes) caseSensitive)).mono
            rintro result ⟨forest', represents, replaces⟩
            refine ⟨forest', represents, replaces.congr ?_⟩
            rintro parent rfl
            apply Eq.symm
            apply underName_congr
            intro node inside
            apply others
            rintro rfl
            exact (canHold parent node rfl rfl).root.2 parent inside

/-! ## All calls -/

theorem Detaching.outcome {container : Pointer} {find : Addr -> Option Addr}
    (isChild : ∀ parent item, container = some parent -> find parent = some item ->
      item ∈ forest.children parent)
    {run : Nat -> Except MemoryFault (Pointer × Heap)} (settles : Settles run (Detaching forest container find)) :
    Settles (fun fuel => returnNode (run fuel)) fun result =>
      ∃ forest', result.2.Draws forest' ∧ Takes forest forest' container find result.1 := by
  apply Settles.bind settles
  intro result detaching
  exact Settles.ok (detaching.takes isChild)

theorem Detaching.deleted {container : Pointer} {find : Addr -> Option Addr}
    (isChild : ∀ parent item, container = some parent -> find parent = some item ->
      item ∈ forest.children parent)
    {run : Nat -> Except MemoryFault (Pointer × Heap)} (settles : Settles run (Detaching forest container find)) :
    Settles (fun fuel => returnNothing (do
        let (item, heap) ← run fuel
        Heap.cjsonDelete fuel (heap.recordChild container item) item)) fun result =>
      ∃ forest', result.2.Draws forest' ∧ Drops forest forest' container find result.1 := by
  have order : ∀ fuel, returnNothing (do
      let (item, heap) ← run fuel
      Heap.cjsonDelete fuel (heap.recordChild container item) item) =
        run fuel >>= fun result =>
          returnNothing (Heap.cjsonDelete fuel (result.2.recordChild container result.1) result.1) := by
    intro fuel
    cases run fuel <;> rfl
  apply Settles.congr (Settles.bind settles _) order
  intro result detaching
  apply Settles.bind (detaching.drops isChild)
  rintro after ⟨forest', represents, drops⟩
  exact Settles.ok ⟨forest', represents, drops⟩

theorem detachFromArray_settles (draws : heap.Draws forest) {array : Pointer} (valid : heap.Valid array)
    (which : Int) : Settles (fun _ : Nat => heap.cjsonDetachItemFromArray array which)
      (Detaching forest array (atIndex forest which)) := by
  unfold Heap.cjsonDetachItemFromArray
  by_cases negative : which < 0
  · simp only [negative, if_true]
    apply Settles.ok
    cases array with
    | none => exact ⟨rfl, draws⟩
    | some node => simpa [Detaching, atIndex, negative, taken] using draws
  · simp only [negative, if_false]
    exact draws.detaching atIndex_mem (search_array draws (draws.valid_live valid) negative)

theorem detachFromObject_settles (draws : heap.Draws forest) {object : Pointer} (valid : heap.Valid object)
    (string : Option Bytes) (caseSensitive : Bool) :
    Settles (fun fuel => Heap.cjsonDetachItemFromObject fuel heap object string caseSensitive)
      (Detaching forest object (heap.underName forest string caseSensitive)) :=
  draws.detaching underName_mem (search_object draws (draws.valid_live valid) string caseSensitive)

theorem detachViaPointer_settles (draws : heap.Draws forest) {parent item : Pointer}
    (proper : heap.ChildOf parent item) :
    Settles (fun _ : Nat => heap.cjsonDetachItemViaPointer parent item)
      (Detaching forest parent (fun _ => item)) := by
  cases parent with
  | none => exact Settles.ok ⟨rfl, draws⟩
  | some upper =>
      apply Settles.of_returns
      apply draws.takes
      intro node same
      exact (draws.isChild_iff node upper).mp (proper upper node rfl same)

theorem delete_behaves (draws : heap.Draws forest) {item : Pointer}
    (proper : (Operation.delete item).Proper heap) : heap.Behaves library forest (.delete item) := by
  cases item with
  | none =>
      apply Settles.succ
      exact Settles.ok ⟨forest, draws, rfl, rfl⟩
  | some node =>
      have root := (draws.detached_iff node).mp (proper node rfl)
      apply Settles.bind (draws.cjsonDelete (fun _ => by simp) root)
      rintro after ⟨represents, _⟩
      refine Settles.ok ⟨_, represents, rfl, fun _ => Iff.rfl, ?_⟩
      intro other alive
      exact children_remove alive

theorem replaceItemInArray_behaves (draws : heap.Draws forest) {array newitem : Pointer} {which : Int}
    (promised : (Operation.replaceItemInArray array which newitem).Promised heap) :
    heap.Behaves library forest (.replaceItemInArray array which newitem) := by
  rcases promised with ⟨valid, _, holds⟩
  simp only [Behaves, Operation.run, Operation.Effect, Heap.cjsonReplaceItemInArray]
  have live := draws.valid_live valid
  have canHold := draws.mayHold valid holds
  by_cases negative : which < 0
  · simp only [negative, if_true]
    refine Settles.ok ⟨forest, draws, ?_⟩
    cases array with
    | none => exact ⟨rfl, rfl⟩
    | some parent => cases newitem <;> simp [Replaces, atIndex, negative]
  · simp only [negative, if_false]
    exact draws.searchAndReplace live canHold atIndex_mem (search_array draws live negative)

theorem replaceItemViaPointer_behaves (draws : heap.Draws forest) {parent item replacement : Pointer}
    (promised : (Operation.replaceItemViaPointer parent item replacement).Promised heap)
    (proper : heap.ChildOf parent item) :
    heap.Behaves library forest (.replaceItemViaPointer parent item replacement) := by
  rcases promised with ⟨valid, _, _, holds⟩
  apply draws.replaces (draws.valid_live valid) (draws.mayHold valid holds)
  intro upper node isParent isItem
  exact (draws.isChild_iff node upper).mp (proper upper node isParent isItem)

/-- Every call that keeps to the rules has its effect. -/
theorem Represents.behaves (consumes : library.ConsumesAtMost) (draws : heap.Draws forest)
    (operation : Operation) (promised : operation.Promised heap) (proper : operation.Proper heap) :
    heap.Behaves library forest operation := by
  cases operation with
  | createNull => exact Constructs.returnNode (createNode_constructs _) draws
  | createTrue => exact Constructs.returnNode (createNode_constructs _) draws
  | createFalse => exact Constructs.returnNode (createNode_constructs _) draws
  | createBool boolean => exact Constructs.returnNode (createNode_constructs _) draws
  | createNumber num => exact Constructs.returnNode (createNode_constructs _) draws
  | createString string => exact Constructs.returnNode (createText_constructs .string string) draws
  | createRaw raw => exact Constructs.returnNode (createText_constructs .raw raw) draws
  | createStringReference string => exact Constructs.returnNode (createNode_constructs _) draws
  | createArray => exact Constructs.returnNode (createNode_constructs _) draws
  | createObject => exact Constructs.returnNode (createNode_constructs _) draws
  | createIntArray numbers => exact Constructs.returnNode (createDoubleArray_constructs _) draws
  | createDoubleArray numbers => exact Constructs.returnNode (createDoubleArray_constructs numbers) draws
  | createStringArray strings => exact Constructs.returnNode (createStringArray_constructs strings) draws
  | parse value later =>
      exact Makes.returnNode (Settles.of_returns
        (draws.cjsonParse consumes (fun _ _ => rfl) value later))
  | duplicate item recurse => exact duplicate_behaves draws promised recurse
  | addItemToArray array item => exact addItemToArray_behaves draws promised proper
  | addItemToObject object string item constantKey => exact addItemToObject_behaves draws promised proper
  | insertItemInArray array which newitem => exact insertItemInArray_behaves draws promised proper
  | detachItemViaPointer parent item => 
      exact Detaching.outcome (fun upper node isParent isItem =>
        (draws.isChild_iff node upper).mp (proper upper node isParent isItem))
        (detachViaPointer_settles draws proper)
  | detachItemFromArray array which =>
      exact Detaching.outcome atIndex_mem (detachFromArray_settles draws promised which)
  | detachItemFromObject object string caseSensitive =>
      exact Detaching.outcome underName_mem (detachFromObject_settles draws promised string caseSensitive)
  | delete item => exact delete_behaves draws proper
  | deleteItemFromArray array which =>
      exact Detaching.deleted atIndex_mem (detachFromArray_settles draws promised which)
  | deleteItemFromObject object string caseSensitive =>
      exact Detaching.deleted underName_mem (detachFromObject_settles draws promised string caseSensitive)
  | replaceItemViaPointer parent item replacement => exact replaceItemViaPointer_behaves draws promised proper
  | replaceItemInArray array which newitem => exact replaceItemInArray_behaves draws promised
  | replaceItemInObject object string replacement caseSensitive => exact replaceItemInObject_behaves draws promised

theorem start_draws (hooks : Hooks) : (start hooks).Draws OrderedForest.empty where
  live node := by
    constructor
    · intro impossible
      cases impossible
    · rintro ⟨⟩
  bounded _ impossible := nomatch impossible
  heads _ impossible := nomatch impossible
  run _ impossible := nomatch impossible
  openRun _ impossible := nomatch impossible
  roots _ _ := ⟨rfl, rfl⟩
  leaves _ impossible := nomatch impossible

/-- Calls that keep to the rules: what is promised of pointers that the caller holds,
and what is proper for the nodes that they are. -/
def Lawful (heap : Heap) (operation : Operation) : Prop :=
  operation.Promised heap ∧ operation.Proper heap

theorem Reachable.draws (consumes : library.ConsumesAtMost) (reachable : Reachable library Lawful heap) :
    ∃ forest, heap.Draws forest := by
  induction reachable with
  | start hooks => exact ⟨_, start_draws hooks⟩
  | step _ lawful ends hypothesis =>
      rcases hypothesis with ⟨forest, draws⟩
      rcases draws.behaves consumes _ lawful.1 lawful.2 with ⟨enough, result, finishes, forest', represents, _⟩
      rcases ends with ⟨more, ends⟩
      have same := (ends (max more enough) (Nat.le_max_left _ _)).symm.trans
        (finishes (max more enough) (Nat.le_max_right _ _))
      cases same
      exact ⟨forest', represents⟩

/-- In every state that lawful calls lead to, the pointers show a forest with all
lists well linked; and every further lawful call ends in such a state, having
appended to, inserted into, erased from or set a place in the one list it names,
and changed no other list. -/
theorem calls_act_on_lists (library : CLibrary) (consumes : library.ConsumesAtMost) (heap : Heap)
    (reachable : Reachable library Lawful heap) :
    ∃ forest, heap.Draws forest ∧
      (∀ node ∈ forest.live, heap.links.WellLinked (heap.childOf node) (forest.children node)) ∧
      ∀ operation : Operation, operation.Promised heap -> operation.Proper heap ->
        heap.Behaves library forest operation := by
  rcases reachable.draws consumes with ⟨forest, draws⟩
  refine ⟨forest, draws, ?_, fun operation => draws.behaves consumes operation⟩
  intro node isLive
  exact draws.wellLinked isLive rfl

/-- Hooks that always have memory. -/
def generous : Hooks := ⟨fun _ _ => true, true⟩

/-- What a constructor leaves when there is memory. -/
def withNode (heap : Heap) (base : BaseType) : Heap :=
  heap.allocate.withFields heap.unused { type_ := { base := base } }

/-- Two arrays, and two nodes to put into them. -/
def fourNodes : Heap :=
  ((((start generous).withNode .array).withNode .array).withNode .null).withNode .null

theorem fourNodes_reachable {allowed : Heap -> Operation -> Prop}
    (creates : ∀ heap, allowed heap .createArray ∧ allowed heap .createNull) :
    Reachable decimalLibrary allowed fourNodes := by
  have one : Reachable decimalLibrary allowed ((start generous).withNode .array) :=
    .step (.start generous) (creates _).1 ⟨0, fun _ _ => rfl⟩
  have two : Reachable decimalLibrary allowed (((start generous).withNode .array).withNode .array) :=
    .step one (creates _).1 ⟨0, fun _ _ => rfl⟩
  have three : Reachable decimalLibrary allowed
      ((((start generous).withNode .array).withNode .array).withNode .null) :=
    .step two (creates _).2 ⟨0, fun _ _ => rfl⟩
  exact .step three (creates _).2 ⟨0, fun _ _ => rfl⟩

theorem calls_act_on_lists_fourNodes :
    decimalLibrary.ConsumesAtMost ∧ Reachable decimalLibrary Lawful fourNodes ∧
    ∃ forest, fourNodes.Draws forest ∧
      (∀ node ∈ forest.live,
        fourNodes.links.WellLinked (fourNodes.childOf node) (forest.children node)) ∧
      ∀ operation : Operation, operation.Promised fourNodes -> operation.Proper fourNodes ->
        Behaves decimalLibrary fourNodes forest operation := by
  have reachable : Reachable decimalLibrary Lawful fourNodes :=
    fourNodes_reachable (fun _ => ⟨⟨trivial, trivial⟩, trivial, trivial⟩)
  exact ⟨decimalLibrary_consumesAtMost, reachable,
    calls_act_on_lists decimalLibrary decimalLibrary_consumesAtMost fourNodes reachable⟩

/-- What `add_item_to_array` leaves when the array was empty. -/
def withOnlyChild (heap : Heap) (array item : Addr) : Heap :=
  (heap.withChild array (some item)).withLinks ((heap.links.setPrev item (some item)).setNext item none)

theorem not_isChild_fourNodes (node parent : Addr) : ¬ fourNodes.IsChild node parent := by
  rintro ⟨_, path⟩
  have childless : fourNodes.childOf parent = none := by
    simp [fourNodes, withNode, Heap.allocate, start]
  rw [childless] at path
  cases path

theorem isChild_withOnlyChild {node parent : Addr} (isChild : (fourNodes.withOnlyChild 0 2).IsChild node parent) :
    node = 2 ∧ parent = 0 := by
  rcases isChild with ⟨_, path⟩
  have child : (fourNodes.withOnlyChild 0 2).childOf parent = if parent = 0 then some 2 else none := by
    simp [withOnlyChild, fourNodes, withNode, Heap.allocate, start]
  rw [child] at path
  by_cases same : parent = 0
  · rw [if_pos same] at path
    cases path with
    | here => exact ⟨rfl, same⟩
    | next later => cases later
  · rw [if_neg same] at path
    cases path

/-- Detaching a node from an array that it is not in: the first two nodes are
arrays, each of them gets a child, and the first array is told to give up the
child of the second one.  Then the second array's only child has no `prev`. -/
theorem detach_from_wrong_parent : ¬ ∀ library heap,
    Reachable library (fun heap operation => operation.Promised heap) heap ->
      ∀ node, heap.allocated node = true -> ∃ nodes, heap.links.WellLinked (heap.childOf node) nodes := by
  intro claim
  have four : Reachable decimalLibrary (fun heap operation => operation.Promised heap) fourNodes :=
    fourNodes_reachable (fun _ => ⟨trivial, trivial⟩)
  have valid : ∀ heap : Heap, heap.allocated = fourNodes.allocated -> ∀ node < 4, heap.Valid (some node) := by
    rintro heap same node small _ ⟨⟩
    rw [same]
    interval_cases node <;> rfl
  have five : Reachable decimalLibrary (fun heap operation => operation.Promised heap)
      (fourNodes.withOnlyChild 0 2) := by
    refine @Reachable.step _ _ _ _ (.addItemToArray (some 0) (some 2)) _ four
      ⟨valid _ rfl 0 (by decide), valid _ rfl 2 (by decide), ?_⟩ ⟨0, fun _ _ => rfl⟩
    rintro _ _ ⟨⟩ ⟨⟩
    refine ⟨⟨rfl, not_isChild_fourNodes 2⟩, ?_⟩
    intro path
    rcases Relation.ReflTransGen.cases_head path with impossible | ⟨_, isChild, _⟩
    · cases impossible
    · exact not_isChild_fourNodes _ _ isChild
  have six : Reachable decimalLibrary (fun heap operation => operation.Promised heap)
      ((fourNodes.withOnlyChild 0 2).withOnlyChild 1 3) := by
    refine @Reachable.step _ _ _ _ (.addItemToArray (some 1) (some 3)) _ five
      ⟨valid _ rfl 1 (by decide), valid _ rfl 3 (by decide), ?_⟩ ⟨0, fun _ _ => rfl⟩
    rintro _ _ ⟨⟩ ⟨⟩
    refine ⟨⟨rfl, fun parent isChild => ?_⟩, ?_⟩
    · cases (isChild_withOnlyChild isChild).1
    · intro path
      rcases Relation.ReflTransGen.cases_head path with impossible | ⟨_, isChild, _⟩
      · cases impossible
      · cases (isChild_withOnlyChild isChild).1
  have seven := @Reachable.step _ _ _ _ (.detachItemViaPointer (some 0) (some 3)) (.node (some 3)) six
    ⟨valid _ rfl 0 (by decide), valid _ rfl 3 (by decide)⟩ ⟨0, fun _ _ => rfl⟩
  rcases claim decimalLibrary _ seven 1 rfl with ⟨nodes, head, run⟩
  cases nodes with
  | nil => cases head
  | cons first rest =>
      cases head
      rw [List.getLast?_cons] at run
      cases run.1

end Heap
end CJson
