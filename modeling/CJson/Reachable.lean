import CJson.HeapParse

/-!
# Runs of the tree manipulation functions

A program builds trees with the constructors, the parser and `cjson_duplicate`,
and changes them with the functions that add, insert, detach, delete and
replace.  What a caller must keep to is stated on the pointers: who is whose
child is read off the `child` and `next` fields.
-/

namespace CJson

open CString

namespace Heap

open OrderedForest

/-- A call of the public interface, with its arguments.  Pointers are addresses or
NULL; strings are the bytes that are read from them. -/
inductive Operation where
  | createNull
  | createTrue
  | createFalse
  | createBool (boolean : Bool)
  | createNumber (num : Binary64)
  | createString (string : Option Bytes)
  | createRaw (raw : Option Bytes)
  | createStringReference (string : Option Bytes)
  | createArray
  | createObject
  | createIntArray (numbers : List Int)
  | createDoubleArray (numbers : List Binary64)
  | createStringArray (strings : List (Option Bytes))
  | parse (value : Bytes) (later : Hooks)
  | duplicate (item : Pointer) (recurse : Bool)
  | addItemToArray (array item : Pointer)
  | addItemToObject (object : Pointer) (string : Option Name) (item : Pointer) (constantKey : Bool)
  | insertItemInArray (array : Pointer) (which : Int) (newitem : Pointer)
  | detachItemViaPointer (parent item : Pointer)
  | detachItemFromArray (array : Pointer) (which : Int)
  | detachItemFromObject (object : Pointer) (string : Option Bytes) (caseSensitive : Bool)
  | delete (item : Pointer)
  | deleteItemFromArray (array : Pointer) (which : Int)
  | deleteItemFromObject (object : Pointer) (string : Option Bytes) (caseSensitive : Bool)
  | replaceItemViaPointer (parent item replacement : Pointer)
  | replaceItemInArray (array : Pointer) (which : Int) (newitem : Pointer)
  | replaceItemInObject (object : Pointer) (string : Option Name) (replacement : Pointer)
      (caseSensitive : Bool)

/-- What a call returns. -/
inductive Outcome where
  | node (pointer : Pointer)
  | flag (success : Bool)
  | nothing
  deriving DecidableEq, Repr

def returnNode (run : Except MemoryFault (Pointer × Heap)) : Except MemoryFault (Outcome × Heap) := do
  let (pointer, heap) ← run
  .ok (.node pointer, heap)

def returnFlag (run : Except MemoryFault (Bool × Heap)) : Except MemoryFault (Outcome × Heap) := do
  let (success, heap) ← run
  .ok (.flag success, heap)

def returnNothing (run : Except MemoryFault Heap) : Except MemoryFault (Outcome × Heap) := do
  let heap ← run
  .ok (.nothing, heap)

/-- One call, with what it returns and the heap that it leaves.  The fuel bounds the
recursion below a node and is the same for every call. -/
def Operation.run (library : CLibrary) (fuel : Nat) (heap : Heap) :
    Operation -> Except MemoryFault (Outcome × Heap)
  | .createNull => returnNode heap.cjsonCreateNull
  | .createTrue => returnNode heap.cjsonCreateTrue
  | .createFalse => returnNode heap.cjsonCreateFalse
  | .createBool boolean => returnNode (heap.cjsonCreateBool boolean)
  | .createNumber num => returnNode (heap.cjsonCreateNumber num)
  | .createString string => returnNode (cjsonCreateString fuel heap string)
  | .createRaw raw => returnNode (cjsonCreateRaw fuel heap raw)
  | .createStringReference string => returnNode (heap.cjsonCreateStringReference string)
  | .createArray => returnNode heap.cjsonCreateArray
  | .createObject => returnNode heap.cjsonCreateObject
  | .createIntArray numbers => returnNode (cjsonCreateIntArray fuel heap numbers)
  | .createDoubleArray numbers => returnNode (cjsonCreateDoubleArray fuel heap numbers)
  | .createStringArray strings => returnNode (cjsonCreateStringArray fuel heap strings)
  | .parse value later => returnNode (Heap.cjsonParse library heap value later)
  | .duplicate item recurse => returnNode (cjsonDuplicate fuel heap item recurse)
  | .addItemToArray array item => returnFlag (heap.addItemToArray array item)
  | .addItemToObject object string item constantKey =>
      returnFlag (heap.addItemToObject object string item constantKey)
  | .insertItemInArray array which newitem => returnFlag (heap.cjsonInsertItemInArray array which newitem)
  | .detachItemViaPointer parent item => returnNode (heap.cjsonDetachItemViaPointer parent item)
  | .detachItemFromArray array which => returnNode (heap.cjsonDetachItemFromArray array which)
  | .detachItemFromObject object string caseSensitive =>
      returnNode (cjsonDetachItemFromObject fuel heap object string caseSensitive)
  | .delete item => returnNothing (cjsonDelete fuel heap item)
  | .deleteItemFromArray array which => returnNothing (cjsonDeleteItemFromArray fuel heap array which)
  | .deleteItemFromObject object string caseSensitive =>
      returnNothing (cjsonDeleteItemFromObject fuel heap object string caseSensitive)
  | .replaceItemViaPointer parent item replacement =>
      returnFlag (cjsonReplaceItemViaPointer fuel heap parent item replacement)
  | .replaceItemInArray array which newitem =>
      returnFlag (cjsonReplaceItemInArray fuel heap array which newitem)
  | .replaceItemInObject object string replacement caseSensitive =>
      returnFlag (Heap.replaceItemInObject fuel heap object string replacement caseSensitive)

/-! ## What callers keep to -/

/-- Following `next` from a pointer leads to a node.  Nothing is assumed of `prev`, so
that the lists in question need not be well linked. -/
inductive Leads (heap : Heap) : Pointer -> Addr -> Prop where
  | here {node : Addr} : Leads heap (some node) node
  | next {node later : Addr} (path : Leads heap (heap.links.next node) later) :
      Leads heap (some node) later

/-- `node` is in the child list of `parent`, by what the pointers of the heap say. -/
def IsChild (heap : Heap) (node parent : Addr) : Prop :=
  heap.allocated parent = true ∧ heap.Leads (heap.childOf parent) node

/-- A node that is in no child list, and can be put into one. -/
def Detached (heap : Heap) (node : Addr) : Prop :=
  heap.allocated node = true ∧ ∀ parent, ¬ heap.IsChild node parent

/-- NULL or a node. -/
def Valid (heap : Heap) (pointer : Pointer) : Prop :=
  ∀ node, pointer = some node -> heap.allocated node = true

/-- The item is detached, and neither the container nor one of its ancestors. -/
def MayHold (heap : Heap) (container item : Pointer) : Prop :=
  ∀ parent node, container = some parent -> item = some node ->
    heap.Detached node ∧ ¬ Relation.ReflTransGen heap.IsChild parent node

/-- If the name that is given is that of a node, then this node does not own it. -/
def NotOwned (heap : Heap) (string : Option Name) (node : Addr) : Prop :=
  ∀ name, string = some name -> name.keyOf = some node -> (heap.fieldsOf node).ownsName = false

/-- The pointers given to a call are NULL or point to nodes, and what is put into
a list may be put there.  A constant name belongs to no node, since it has to outlive the
item, and a replacement is not given its own name again, since the call frees that one
before it reads it. -/
def Operation.Promised (heap : Heap) : Operation -> Prop
  | .duplicate item _ | .delete item => heap.Valid item
  | .addItemToArray array item | .insertItemInArray array _ item | .replaceItemInArray array _ item =>
      heap.Valid array ∧ heap.Valid item ∧ heap.MayHold array item
  | .addItemToObject array string item constantKey =>
      heap.Valid array ∧ heap.Valid item ∧ heap.MayHold array item ∧
        (constantKey = true -> ∀ node, heap.NotOwned string node)
  | .replaceItemInObject array string item _ =>
      heap.Valid array ∧ heap.Valid item ∧ heap.MayHold array item ∧
        ∀ node, item = some node -> heap.NotOwned string node
  | .detachItemViaPointer parent item => heap.Valid parent ∧ heap.Valid item
  | .detachItemFromArray array _ | .deleteItemFromArray array _ | .detachItemFromObject array _ _
  | .deleteItemFromObject array _ _ => heap.Valid array
  | .replaceItemViaPointer parent item replacement =>
      heap.Valid parent ∧ heap.Valid item ∧ heap.Valid replacement ∧ heap.MayHold parent replacement
  | _ => True

/-- No items are put into a string that borrows its text. -/
def NoReference (heap : Heap) (container : Pointer) : Prop :=
  ∀ node, container = some node -> (heap.fieldsOf node).type_.isReference = false

/-- The item is a child of that parent. -/
def ChildOf (heap : Heap) (parent item : Pointer) : Prop :=
  ∀ upper node, parent = some upper -> item = some node -> heap.IsChild node upper

/-- What the functions rely on besides: a node that is named together with its
parent is its child, a tree is deleted from its root, and a reference is no
container. -/
def Operation.Proper (heap : Heap) : Operation -> Prop
  | .addItemToArray array _ | .addItemToObject array _ _ _ | .insertItemInArray array _ _ =>
      heap.NoReference array
  | .detachItemViaPointer parent item | .replaceItemViaPointer parent item _ => heap.ChildOf parent item
  | .delete item => ∀ node, item = some node -> heap.Detached node
  | _ => True

/-- No nodes yet. -/
def start (hooks : Hooks) : Heap where
  allocated _ := false
  unused := 0
  links := ⟨fun _ => none, fun _ => none⟩
  childOf _ := none
  fieldsOf _ := { type_ := { base := .invalid } }
  hooks := hooks

/-- A call ends, if its recursion is given enough. -/
def Operation.Ends (library : CLibrary) (operation : Operation) (heap : Heap) (outcome : Outcome)
    (after : Heap) : Prop :=
  ∃ enough, ∀ fuel, enough ≤ fuel -> operation.run library fuel heap = .ok (outcome, after)

/-- The states that calls lead to. -/
inductive Reachable (library : CLibrary) (allowed : Heap -> Operation -> Prop) : Heap -> Prop where
  | start (hooks : Hooks) : Reachable library allowed (start hooks)
  | step {heap after : Heap} {operation : Operation} {outcome : Outcome}
      (reachable : Reachable library allowed heap) (may : allowed heap operation)
      (ends : operation.Ends library heap outcome after) : Reachable library allowed after

/-! ## What the calls do to the lists -/

/-- One list has been exchanged for another, and some nodes are gone.  All other lists
are what they were. -/
structure Edits (forest forest' : OrderedForest Addr) (parent : Addr) (list : List Addr)
    (gone : Addr -> Prop) : Prop where
  live : ∀ node, node ∈ forest'.live ↔ node ∈ forest.live ∧ ¬ gone node
  list : forest'.children parent = list
  others : ∀ node, node ≠ parent -> ¬ gone node -> forest'.children node = forest.children node

/-- Some nodes are gone, and the lists of the others are as they were. -/
structure Trims (forest forest' : OrderedForest Addr) (gone : Addr -> Prop) : Prop where
  live : ∀ node, node ∈ forest'.live ↔ node ∈ forest.live ∧ ¬ gone node
  lists : ∀ node, ¬ gone node -> forest'.children node = forest.children node

/-- The member that a lookup finds.  In case-sensitive mode a NULL name ends the
search. -/
def findMember (fieldsOf : Addr -> Fields) (name : Bytes) (caseSensitive : Bool) : List Addr -> Option Addr
  | [] => none
  | node :: rest =>
      match (fieldsOf node).string with
      | none => if caseSensitive then none else findMember fieldsOf name caseSensitive rest
      | some string =>
          if compareBy (caseFold caseSensitive) string name = 0 then some node
          else findMember fieldsOf name caseSensitive rest

/-- The child at an index, which may be negative. -/
def atIndex (forest : OrderedForest Addr) (which : Int) (array : Addr) : Option Addr :=
  if which < 0 then none else (forest.children array)[which.toNat]?

/-- The child under a name, which may be NULL. -/
def underName (heap : Heap) (forest : OrderedForest Addr) (string : Option Bytes) (caseSensitive : Bool)
    (object : Addr) : Option Addr :=
  string.bind (fun name => findMember heap.fieldsOf name caseSensitive (forest.children object))

/-- An item is put into a list, if there are both.  Where it comes to stand is told by
`change`. -/
def Adds (forest forest' : OrderedForest Addr) (container item : Pointer)
    (change : List Addr -> Addr -> List Addr) (outcome : Outcome) : Prop :=
  match container, item with
  | some parent, some node => outcome = .flag true ∧
      Edits forest forest' parent (change (forest.children parent) node) (fun _ => False)
  | _, _ => outcome = .flag false ∧ forest' = forest

/-- A child is taken out of its list, if there is one to be found.  It is returned,
and its tree is still there. -/
def Takes (forest forest' : OrderedForest Addr) (container : Pointer) (find : Addr -> Option Addr)
    (outcome : Outcome) : Prop :=
  match container with
  | none => outcome = .node none ∧ forest' = forest
  | some parent =>
      match find parent with
      | none => outcome = .node none ∧ forest' = forest
      | some node => outcome = .node (some node) ∧
          Edits forest forest' parent ((forest.children parent).erase node) (fun _ => False)

/-- A child is taken out of its list, and its tree is gone.  The call returns nothing
in any case. -/
def Drops (forest forest' : OrderedForest Addr) (container : Pointer) (find : Addr -> Option Addr)
    (outcome : Outcome) : Prop :=
  outcome = .nothing ∧
    match container with
    | none => forest' = forest
    | some parent =>
        match find parent with
        | none => forest' = forest
        | some node =>
            Edits forest forest' parent ((forest.children parent).erase node) (forest.Below node)

/-- A child is exchanged for another node, and its tree is gone.  The other node takes
its place in the list. -/
def Replaces (forest forest' : OrderedForest Addr) (container : Pointer) (find : Addr -> Option Addr)
    (replacement : Pointer) (outcome : Outcome) : Prop :=
  match container, replacement with
  | some parent, some new =>
      match find parent with
      | none => outcome = .flag false ∧ forest' = forest
      | some node => outcome = .flag true ∧ Edits forest forest' parent
          ((forest.children parent).set ((forest.children parent).idxOf node) new) (forest.Below node)
  | _, _ => outcome = .flag false ∧ forest' = forest

/-- A copy of a string can be made. -/
def copyGranted (heap : Heap) (string : Bytes) : Bool := (heap.strdup string).1.isSome

/-- What a call does: constructors add a tree or nothing, the other calls append,
insert, erase or set.  Where a call needs memory, the case that it gets none is
spelled out: nothing has changed then. -/
def Operation.Effect (heap : Heap) (forest forest' : OrderedForest Addr) (outcome : Outcome) :
    Operation -> Prop
  | .addItemToArray array item => Adds forest forest' array item (fun list node => list ++ [node]) outcome
  | .addItemToObject _ none _ _ => outcome = .flag false ∧ forest' = forest
  | .addItemToObject object (some string) item constantKey =>
      if constantKey || heap.copyGranted string.bytes then
        Adds forest forest' object item (fun list node => list ++ [node]) outcome
      else outcome = .flag false ∧ forest' = forest
  | .insertItemInArray array which newitem =>
      if which < 0 then outcome = .flag false ∧ forest' = forest
      else Adds forest forest' array newitem
        (fun list node => list.insertIdx (min which.toNat list.length) node) outcome
  | .detachItemViaPointer parent item => Takes forest forest' parent (fun _ => item) outcome
  | .detachItemFromArray array which => Takes forest forest' array (atIndex forest which) outcome
  | .detachItemFromObject object string caseSensitive =>
      Takes forest forest' object (underName heap forest string caseSensitive) outcome
  | .delete none => outcome = .nothing ∧ forest' = forest
  | .delete (some node) => outcome = .nothing ∧ Trims forest forest' (forest.Below node)
  | .deleteItemFromArray array which => Drops forest forest' array (atIndex forest which) outcome
  | .deleteItemFromObject object string caseSensitive =>
      Drops forest forest' object (underName heap forest string caseSensitive) outcome
  | .replaceItemViaPointer parent item replacement =>
      Replaces forest forest' parent (fun _ => item) replacement outcome
  | .replaceItemInArray array which newitem =>
      Replaces forest forest' array (atIndex forest which) newitem outcome
  | .replaceItemInObject _ none _ _ => outcome = .flag false ∧ forest' = forest
  | .replaceItemInObject object (some string) replacement caseSensitive =>
      if heap.copyGranted string.bytes then
        Replaces forest forest' object (underName heap forest (some string.bytes) caseSensitive) replacement
          outcome
      else outcome = .flag false ∧ forest' = forest
  | .duplicate none _ => outcome = .node none ∧ forest' = forest
  | _ => ∃ result, outcome = .node result ∧ forest.Grown forest' result

/-! ## Pointers and forest -/

variable {heap : Heap} {forest : OrderedForest Addr}

/-- Between calls every list is well linked. -/
abbrev Draws (heap : Heap) (forest : OrderedForest Addr) : Prop :=
  heap.Represents forest (fun _ => .closed)

theorem leads_iff {before : Pointer} {nodes : List Addr} (run : heap.links.Run before nodes none)
    (node : Addr) : heap.Leads nodes.head? node ↔ node ∈ nodes := by
  induction nodes generalizing before with
  | nil =>
      constructor
      · rintro ⟨⟩
      · rintro ⟨⟩
  | cons first rest hypothesis =>
      rcases run with ⟨_, next, run⟩
      rw [Option.or_none] at next
      rw [List.head?_cons, List.mem_cons, ← hypothesis run, ← next]
      constructor
      · rintro (_ | path)
        · exact Or.inl rfl
        · exact Or.inr path
      · rintro (rfl | path)
        · exact .here
        · exact .next path

theorem Represents.isChild_iff (draws : heap.Draws forest) (node parent : Addr) :
    heap.IsChild node parent ↔ node ∈ forest.children parent := by
  constructor
  · rintro ⟨isLive, path⟩
    have parentLive := (draws.live parent).mp isLive
    rw [draws.heads parent parentLive (by simp)] at path
    exact (leads_iff (draws.run parent parentLive rfl) node).mp path
  · intro inside
    have parentLive := (forest.closed inside).2
    refine ⟨draws.allocated parentLive, ?_⟩
    rw [draws.heads parent parentLive (by simp)]
    exact (leads_iff (draws.run parent parentLive rfl) node).mpr inside

theorem Represents.detached_iff (draws : heap.Draws forest) (node : Addr) :
    heap.Detached node ↔ forest.IsRoot node := by
  unfold Detached IsRoot
  simp only [draws.live, draws.isChild_iff]

theorem Represents.canHold (draws : heap.Draws forest) {parent node : Addr}
    (valid : heap.Valid (some parent)) (holds : heap.MayHold (some parent) (some node)) :
    forest.CanHold parent node := by
  rcases holds parent node rfl rfl with ⟨detached, apart⟩
  refine ⟨(draws.detached_iff node).mp detached, (draws.live parent).mp (valid parent rfl), ?_⟩
  intro below
  apply apart
  exact Relation.ReflTransGen.mono (fun child upper => (draws.isChild_iff child upper).mpr) _ _ below

end Heap
end CJson
