import CJson.Alloc
import CJson.Item
import CJson.Library.Links

/-!
# Nodes in memory

Here a node is an address, and its three links are pointers, as in `model.rs`.
The fields that carry no links stay values.  Every access goes through a
pointer: NULL, and an address that has not been handed out or has been freed,
are faults.  What is given back is recorded with the flags of the node it hangs
on, since these flags say what the node does not own.
-/

namespace CJson

open CString

/-- The address of a node. -/
abbrev Addr := Nat

/-- A pointer to a node, `none` for NULL. -/
abbrev Pointer := Option Addr

/-- Ways in which a step on the heap stops that the source has no code for: a read or
a write through NULL, one through a pointer to a node that has been freed, and a
recursion that does not come to an end. -/
inductive MemoryFault where
  | null
  | dangling
  | outOfFuel
  deriving DecidableEq, Repr

/-- Something that is handed to the deallocate hook and hangs on a node: its name, its
string value, or children of it.  With it goes what the flags of that node are when
the code reaches it there, because it is the flags that say whose it is. -/
inductive Release where
  | string (owner : ItemType)
  | valuestring (owner : ItemType)
  /-- `cjson_delete` on the child list of a node, or on one child that has been taken
  out of this list. -/
  | child (owner : ItemType)
  deriving DecidableEq, Repr

/-- The node owns what is given back.  A constant name belongs to the caller, and a
reference borrows its string value and its children, so giving back any of these would
free memory that somebody else still uses.  The flags are those at the time of the
release; for a child that has been taken out of a list they are the flags of the node
that the list was taken from. -/
def Release.Lawful : Release -> Prop
  | string owner => owner.stringIsConst = false
  | valuestring owner => owner.isReference = false
  | child owner => owner.isReference = false

/-- The nodes, one function for each field, and the allocation hooks.  A node that has
been freed keeps its old fields, but reading it is a fault; `released` is a record
that no function reads. -/
structure Heap where
  allocated : Addr -> Bool
  /-- Addresses from here on have never been handed out. -/
  unused : Addr
  links : Links Addr
  childOf : Addr -> Pointer
  fieldsOf : Addr -> Fields
  hooks : Hooks
  /-- What the functions that manipulate trees have given back so far. -/
  released : List Release := []

namespace Heap

variable (heap : Heap)

/-- Follow a pointer. -/
def access : Pointer -> Except MemoryFault Addr
  | none => .error .null
  | some node => if heap.allocated node then .ok node else .error .dangling

/-- `(*node).next`. -/
def next (node : Pointer) : Except MemoryFault Pointer := do
  let node ← heap.access node
  .ok (heap.links.next node)

/-- `(*node).prev`. -/
def prev (node : Pointer) : Except MemoryFault Pointer := do
  let node ← heap.access node
  .ok (heap.links.prev node)

/-- `(*node).child`. -/
def child (node : Pointer) : Except MemoryFault Pointer := do
  let node ← heap.access node
  .ok (heap.childOf node)

/-- The fields of `*node` that are not links. -/
def fields (node : Pointer) : Except MemoryFault Fields := do
  let node ← heap.access node
  .ok (heap.fieldsOf node)

def withLinks (links : Links Addr) : Heap := { heap with links := links }

def withChild (node : Addr) (target : Pointer) : Heap :=
  { heap with childOf := Function.update heap.childOf node target }

def withFields (node : Addr) (fields : Fields) : Heap :=
  { heap with fieldsOf := Function.update heap.fieldsOf node fields }

/-- `(*node).next = target`. -/
def setNext (node target : Pointer) : Except MemoryFault Heap := do
  let node ← heap.access node
  .ok (heap.withLinks (heap.links.setNext node target))

/-- `(*node).prev = target`. -/
def setPrev (node target : Pointer) : Except MemoryFault Heap := do
  let node ← heap.access node
  .ok (heap.withLinks (heap.links.setPrev node target))

/-- `(*node).child = target`. -/
def setChild (node target : Pointer) : Except MemoryFault Heap := do
  let node ← heap.access node
  .ok (heap.withChild node target)

/-- Assignments to fields of `*node` that are not links. -/
def setFields (node : Pointer) (change : Fields -> Fields) : Except MemoryFault Heap := do
  let node ← heap.access node
  .ok (heap.withFields node (change (heap.fieldsOf node)))

/-- One call of the allocate hook. -/
def request (size : Nat) : Bool × Heap :=
  ((heap.hooks.request size).1, { heap with hooks := (heap.hooks.request size).2 })

/-- A zeroed node at the first unused address. -/
def allocate : Heap :=
  { heap with
    allocated := Function.update heap.allocated heap.unused true
    unused := heap.unused + 1
    links := (heap.links.setNext heap.unused none).setPrev heap.unused none
    childOf := Function.update heap.childOf heap.unused none
    fieldsOf := Function.update heap.fieldsOf heap.unused { type_ := { base := .invalid } } }

/-- `new_item`. -/
def newItem : Pointer × Heap :=
  if (heap.request nodeSize).1 then (some heap.unused, (heap.request nodeSize).2.allocate)
  else (none, (heap.request nodeSize).2)

/-- `cjson_strdup`: a copy with its terminator. -/
def strdup (string : Bytes) : Option Bytes × Heap :=
  let request := heap.request ((text string).length + 1)
  (if request.1 then some (text string ++ [0]) else none, request.2)

/-- Calls of the deallocate hook on something that hangs on a node. -/
def record (releases : List Release) : Heap := { heap with released := heap.released ++ releases }

/-- A node, if there is one, is deleted as a child of `parent`. -/
def recordChild (parent item : Pointer) : Heap :=
  match parent, item with
  | some parent, some _ => heap.record [.child (heap.fieldsOf parent).type_]
  | _, _ => heap

/-- `deallocate` on a node. -/
def release (node : Pointer) : Except MemoryFault Heap := do
  let node ← heap.access node
  .ok { heap with allocated := Function.update heap.allocated node false }

section Accesses

variable {heap} {node : Addr}

@[simp] theorem access_eq (live : heap.allocated node = true) : heap.access (some node) = .ok node :=
  if_pos live

@[simp] theorem next_eq (live : heap.allocated node = true) :
    heap.next (some node) = .ok (heap.links.next node) := by
  rw [next, access_eq live]
  rfl

@[simp] theorem prev_eq (live : heap.allocated node = true) :
    heap.prev (some node) = .ok (heap.links.prev node) := by
  rw [prev, access_eq live]
  rfl

@[simp] theorem child_eq (live : heap.allocated node = true) :
    heap.child (some node) = .ok (heap.childOf node) := by
  rw [child, access_eq live]
  rfl

@[simp] theorem fields_eq (live : heap.allocated node = true) :
    heap.fields (some node) = .ok (heap.fieldsOf node) := by
  rw [fields, access_eq live]
  rfl

@[simp] theorem setNext_eq (live : heap.allocated node = true) (target : Pointer) :
    heap.setNext (some node) target = .ok (heap.withLinks (heap.links.setNext node target)) := by
  rw [setNext, access_eq live]
  rfl

@[simp] theorem setPrev_eq (live : heap.allocated node = true) (target : Pointer) :
    heap.setPrev (some node) target = .ok (heap.withLinks (heap.links.setPrev node target)) := by
  rw [setPrev, access_eq live]
  rfl

@[simp] theorem setChild_eq (live : heap.allocated node = true) (target : Pointer) :
    heap.setChild (some node) target = .ok (heap.withChild node target) := by
  rw [setChild, access_eq live]
  rfl

@[simp] theorem setFields_eq (live : heap.allocated node = true) (change : Fields -> Fields) :
    heap.setFields (some node) change =
      .ok (heap.withFields node (change (heap.fieldsOf node))) := by
  rw [setFields, access_eq live]
  rfl

end Accesses

@[simp] theorem withLinks_allocated (links : Links Addr) :
    (heap.withLinks links).allocated = heap.allocated := rfl

@[simp] theorem withLinks_links (links : Links Addr) : (heap.withLinks links).links = links := rfl

@[simp] theorem withLinks_childOf (links : Links Addr) :
    (heap.withLinks links).childOf = heap.childOf := rfl

@[simp] theorem withLinks_fieldsOf (links : Links Addr) :
    (heap.withLinks links).fieldsOf = heap.fieldsOf := rfl

@[simp] theorem withLinks_withLinks (links other : Links Addr) :
    (heap.withLinks links).withLinks other = heap.withLinks other := rfl

@[simp] theorem withLinks_withChild (links : Links Addr) (node : Addr) (target : Pointer) :
    (heap.withLinks links).withChild node target = (heap.withChild node target).withLinks links := rfl

@[simp] theorem withChild_allocated (node : Addr) (target : Pointer) :
    (heap.withChild node target).allocated = heap.allocated := rfl

@[simp] theorem withChild_links (node : Addr) (target : Pointer) :
    (heap.withChild node target).links = heap.links := rfl

@[simp] theorem withChild_childOf (node other : Addr) (target : Pointer) :
    (heap.withChild node target).childOf other = if other = node then target else heap.childOf other :=
  Function.update_apply _ _ _ _

@[simp] theorem withChild_fieldsOf (node : Addr) (target : Pointer) :
    (heap.withChild node target).fieldsOf = heap.fieldsOf := rfl

@[simp] theorem withFields_allocated (node : Addr) (fields : Fields) :
    (heap.withFields node fields).allocated = heap.allocated := rfl

@[simp] theorem withFields_links (node : Addr) (fields : Fields) :
    (heap.withFields node fields).links = heap.links := rfl

@[simp] theorem withFields_childOf (node : Addr) (fields : Fields) :
    (heap.withFields node fields).childOf = heap.childOf := rfl

@[simp] theorem withFields_fieldsOf (node other : Addr) (fields : Fields) :
    (heap.withFields node fields).fieldsOf other =
      if other = node then fields else heap.fieldsOf other :=
  Function.update_apply _ _ _ _

@[simp] theorem record_allocated (releases : List Release) :
    (heap.record releases).allocated = heap.allocated := rfl

@[simp] theorem record_links (releases : List Release) : (heap.record releases).links = heap.links := rfl

@[simp] theorem record_childOf (releases : List Release) :
    (heap.record releases).childOf = heap.childOf := rfl

@[simp] theorem record_fieldsOf (releases : List Release) :
    (heap.record releases).fieldsOf = heap.fieldsOf := rfl

@[simp] theorem record_unused (releases : List Release) : (heap.record releases).unused = heap.unused := rfl

@[simp] theorem record_hooks (releases : List Release) : (heap.record releases).hooks = heap.hooks := rfl

/-- To record a child is to record something. -/
theorem recordChild_eq (parent item : Pointer) : ∃ releases, heap.recordChild parent item = heap.record releases := by
  have nothing : heap = heap.record [] := by rw [record, List.append_nil]
  cases parent with
  | none => exact ⟨[], nothing⟩
  | some parent =>
      cases item with
      | none => exact ⟨[], nothing⟩
      | some item => exact ⟨_, rfl⟩

@[simp] theorem recordChild_fieldsOf (parent item : Pointer) :
    (heap.recordChild parent item).fieldsOf = heap.fieldsOf := by
  rcases heap.recordChild_eq parent item with ⟨releases, same⟩
  rw [same, record_fieldsOf]

@[simp] theorem withLinks_unused (links : Links Addr) : (heap.withLinks links).unused = heap.unused := rfl

@[simp] theorem withLinks_hooks (links : Links Addr) : (heap.withLinks links).hooks = heap.hooks := rfl

@[simp] theorem withChild_unused (node : Addr) (target : Pointer) :
    (heap.withChild node target).unused = heap.unused := rfl

@[simp] theorem withChild_hooks (node : Addr) (target : Pointer) :
    (heap.withChild node target).hooks = heap.hooks := rfl

@[simp] theorem withFields_unused (node : Addr) (fields : Fields) :
    (heap.withFields node fields).unused = heap.unused := rfl

@[simp] theorem withFields_hooks (node : Addr) (fields : Fields) :
    (heap.withFields node fields).hooks = heap.hooks := rfl

end Heap
end CJson
