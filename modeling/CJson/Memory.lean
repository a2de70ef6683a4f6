import CJson.Manip
import CJson.Library.Returns

/-!
# Blocks in memory

Here every block that has been handed out is a cell of its own: a node, or the
bytes of a text.  A string field is a pointer into a text, so that two nodes can
share a name, and a copy of a string is told from the string itself.  What is
created, duplicated and deleted is followed block by block.
-/

namespace CJson

open CString

/-- A pointer to a byte: the block it lies in, and its place there.  Two nodes may
point into one block, as they do where a constant name is shared. -/
structure CharPointer where
  block : Addr
  offset : Nat
  deriving DecidableEq, Repr

/-- `CJson`.  Here strings are pointers, so that it can be said which block a name
lies in and whether it is still there. -/
structure Record where
  next : Pointer := none
  prev : Pointer := none
  child : Pointer := none
  type_ : ItemType := { base := .invalid }
  valuestring : Option CharPointer := none
  valueint : Int := 0
  valuedouble : Binary64 := .finite 0
  string : Option CharPointer := none

/-- What a block holds: a node, or the bytes of a string.  A block of the one kind is
never read as the other. -/
inductive Cell where
  | node (record : Record)
  | text (bytes : Bytes)

/-- The live blocks.  Addresses from `unused` on have never been handed out; an
address that was released is not handed out again, which is what makes a dangling
pointer a fault of the model. -/
structure Memory where
  cells : Addr -> Option Cell
  unused : Addr
  hooks : Hooks
  fresh : ∀ address, unused ≤ address -> cells address = none

namespace Memory

variable (memory : Memory)

/-- Change what a block holds, or release it.  An address that has never been handed
out is left as it is, so the promise about fresh addresses survives whatever is
stored. -/
def store (address : Addr) (cell : Option Cell) : Memory where
  cells other := if other = address ∧ address < memory.unused then cell else memory.cells other
  unused := memory.unused
  hooks := memory.hooks
  fresh := by
    intro other (beyond : memory.unused ≤ other)
    rw [if_neg (fun both => Nat.not_lt.mpr (both.1 ▸ beyond) both.2)]
    exact memory.fresh other beyond

/-- A block at the first unused address, with these contents.  No address is used
twice: a pointer to a block that has been released stays dangling for good. -/
def allocate (cell : Cell) : Memory where
  cells := Function.update memory.cells memory.unused (some cell)
  unused := memory.unused + 1
  hooks := memory.hooks
  fresh := by
    intro other (beyond : memory.unused + 1 ≤ other)
    rw [Function.update_of_ne (Nat.ne_of_gt beyond)]
    exact memory.fresh other (Nat.le_of_succ_le beyond)

/-- One call of the allocate hook. -/
def request (size : Nat) : Bool × Memory :=
  ((memory.hooks.request size).1, { memory with hooks := (memory.hooks.request size).2 })

/-- The fields of `*node`.  To read through NULL is an error, and so is to read a
block that has been released or that holds a text: the code would go on with whatever
is there. -/
def read : Pointer -> Except MemoryFault Record
  | none => .error .null
  | some node =>
      match memory.cells node with
      | some (.node record) => .ok record
      | _ => .error .dangling

/-- Assignments to fields of `*node`. -/
def modify (node : Pointer) (change : Record -> Record) : Except MemoryFault Memory := do
  let record ← memory.read node
  match node with
  | none => .error .null
  | some node => .ok (memory.store node (some (.node (change record))))

/-- The C string at a pointer, which may point into the middle of a block.  The read
runs up to the first zero byte; a block without one behind the pointer is read beyond
its end, which counts as a dangling read. -/
def cString : Option CharPointer -> Except MemoryFault Bytes
  | none => .error .null
  | some pointer =>
      match memory.cells pointer.block with
      | some (.text bytes) =>
          if 0 ∈ bytes.drop pointer.offset then .ok (text (bytes.drop pointer.offset))
          else .error .dangling
      | _ => .error .dangling

/-- `new_item`: one request of the size of a node, and a zeroed node if it is granted. -/
def newItem : Pointer × Memory :=
  let (granted, memory) := memory.request nodeSize
  if granted then (some memory.unused, memory.allocate (.node {})) else (none, memory)

/-- `cjson_strdup`.  NULL is copied to NULL without a request; otherwise one request
of the length and the terminator is made, and a refusal gives NULL as well. -/
def strdup (string : Option CharPointer) : Except MemoryFault (Option CharPointer × Memory) :=
  if string.isNone then .ok (none, memory)
  else do
    let content ← memory.cString string
    let (granted, memory) := memory.request (content.length + 1)
    if granted then .ok (some ⟨memory.unused, 0⟩, memory.allocate (.text (content ++ [0])))
    else .ok (none, memory)

/-- `deallocate` on a live block. -/
def release (block : Addr) : Except MemoryFault Memory :=
  if (memory.cells block).isSome then .ok (memory.store block none) else .error .dangling

/-- `cjson_dealloc` on a string: NULL is ignored, and any other pointer has to be the
beginning of its block. -/
def dealloc : Option CharPointer -> Except MemoryFault Memory
  | none => .ok memory
  | some pointer => if pointer.offset = 0 then memory.release pointer.block else .error .dangling

/-- `cstr_copy`: the text and its terminator are written over the bytes at the
destination.  What stands behind them in the block stays; a text that does not fit is
a write outside of the block. -/
def cstrCopy (destination : Option CharPointer) (source : Bytes) : Except MemoryFault Memory :=
  match destination with
  | none => .error .null
  | some pointer =>
      match memory.cells pointer.block with
      | some (.text bytes) =>
          if pointer.offset + source.length + 1 ≤ bytes.length then
            .ok (memory.store pointer.block (some (.text (bytes.take pointer.offset ++
              (source ++ 0 :: bytes.drop (pointer.offset + source.length + 1))))))
          else .error .dangling
      | _ => .error .dangling

/-- The links of the nodes, as the theory of linked lists reads them.  A block that
holds no node has no neighbours. -/
def links : Links Addr where
  next node :=
    match memory.cells node with
    | some (.node record) => record.next
    | _ => none
  prev node :=
    match memory.cells node with
    | some (.node record) => record.prev
    | _ => none

section Accesses

variable {memory} {after : Memory} {address node : Addr} {record : Record}

theorem lt_unused {cell : Cell} (live : memory.cells address = some cell) : address < memory.unused := by
  apply Nat.lt_of_not_le
  intro beyond
  rw [memory.fresh address beyond] at live
  cases live

theorem store_cells {cell : Cell} (live : memory.cells address = some cell) (held : Option Cell) :
    (memory.store address held).cells = Function.update memory.cells address held := by
  funext other
  by_cases same : other = address
  · rw [same, Function.update_self]
    exact if_pos ⟨rfl, lt_unused live⟩
  · rw [Function.update_of_ne same]
    exact if_neg (fun both => same both.1)

theorem read_eq (live : memory.cells node = some (.node record)) : memory.read (some node) = .ok record := by
  rw [read, live]

theorem read_eq_ok {pointer : Pointer} (found : memory.read pointer = .ok record) :
    ∃ node, pointer = some node ∧ memory.cells node = some (.node record) := by
  cases pointer with
  | none => cases found
  | some node =>
      rw [read] at found
      split at found
      · rename_i held
        cases found
        exact ⟨node, rfl, held⟩
      · cases found

theorem modify_eq (live : memory.cells node = some (.node record)) (change : Record -> Record) :
    memory.modify (some node) change = .ok (memory.store node (some (.node (change record)))) := by
  rw [modify, read_eq live]
  rfl

theorem links_next (live : memory.cells node = some (.node record)) : memory.links.next node = record.next := by
  show (match memory.cells node with
    | some (.node record) => record.next
    | _ => none) = record.next
  rw [live]

theorem links_prev (live : memory.cells node = some (.node record)) : memory.links.prev node = record.prev := by
  show (match memory.cells node with
    | some (.node record) => record.prev
    | _ => none) = record.prev
  rw [live]

/-- Links depend on the cells only. -/
theorem links_congr (same : after.cells address = memory.cells address) :
    after.links.next address = memory.links.next address ∧ after.links.prev address = memory.links.prev address := by
  show (match after.cells address with
      | some (.node record) => record.next
      | _ => none) = (match memory.cells address with
      | some (.node record) => record.next
      | _ => none) ∧
    (match after.cells address with
      | some (.node record) => record.prev
      | _ => none) = (match memory.cells address with
      | some (.node record) => record.prev
      | _ => none)
  rw [same]
  exact ⟨rfl, rfl⟩

/-- A write to a node is a write to its two links. -/
theorem store_links (live : memory.cells node = some (.node record)) (other : Record) :
    (memory.store node (some (.node other))).links =
      (memory.links.setNext node other.next).setPrev node other.prev := by
  have cells := store_cells live (some (.node other))
  have held : (memory.store node (some (.node other))).cells node = some (.node other) := by
    rw [cells, Function.update_self]
  have elsewhere : ∀ later, later ≠ node ->
      (memory.store node (some (.node other))).cells later = memory.cells later := by
    intro later different
    rw [cells, Function.update_of_ne different]
  have next : (memory.store node (some (.node other))).links.next =
      Function.update memory.links.next node other.next := by
    funext later
    by_cases same : later = node
    · rw [same, Function.update_self]
      exact links_next held
    · rw [Function.update_of_ne same]
      exact (links_congr (elsewhere later same)).1
  have prev : (memory.store node (some (.node other))).links.prev =
      Function.update memory.links.prev node other.prev := by
    funext later
    by_cases same : later = node
    · rw [same, Function.update_self]
      exact links_prev held
    · rw [Function.update_of_ne same]
      exact (links_congr (elsewhere later same)).2
  calc (memory.store node (some (.node other))).links
      = ⟨(memory.store node (some (.node other))).links.next,
          (memory.store node (some (.node other))).links.prev⟩ := rfl
    _ = ⟨Function.update memory.links.next node other.next,
          Function.update memory.links.prev node other.prev⟩ := by rw [next, prev]
    _ = (memory.links.setNext node other.next).setPrev node other.prev := rfl

end Accesses

end Memory

/-! ## Deleting -/

open Memory

/-- `cjson_delete`: a node, what is below it, and its later siblings.  A reference
keeps its children and its string value, and a constant name is kept too, since the
node owns none of them.  The flags are read again behind every call, as the code does,
and the sibling is remembered before anything is released. -/
def Memory.cjsonDelete : Nat -> Memory -> Pointer -> Except MemoryFault Memory
  | 0, _, _ => .error .outOfFuel
  | fuel + 1, memory, cur =>
      match cur with
      | none => .ok memory
      | some node => do
          let record ← memory.read cur
          let next := record.next
          let memory ← (if !record.type_.isReference && record.child.isSome then
              cjsonDelete fuel memory record.child
            else .ok memory)
          let record ← memory.read cur
          let memory ← (if !record.type_.isReference && record.valuestring.isSome then do
              let memory ← memory.dealloc record.valuestring
              memory.modify cur (fun record => { record with valuestring := none })
            else .ok memory)
          let record ← memory.read cur
          let memory ← (if !record.type_.stringIsConst && record.string.isSome then do
              let memory ← memory.dealloc record.string
              memory.modify cur (fun record => { record with string := none })
            else .ok memory)
          let memory ← memory.release node
          cjsonDelete fuel memory next

namespace Memory

variable (memory : Memory)

/-! ## Linking -/

/-- `suffix_object`. -/
def suffixObject (prev item : Pointer) : Except MemoryFault Memory := do
  let memory ← memory.modify prev (fun record => { record with next := item })
  memory.modify item (fun record => { record with prev := prev })

/-- `create_reference`: a node with the fields of another one, its children and its
string value included, but without a name and without neighbours.  It carries the flag
that keeps `cjson_delete` from releasing what it borrows. -/
def createReference (item : Pointer) : Except MemoryFault (Pointer × Memory) :=
  if item.isNone then .ok (none, memory)
  else
    match memory.newItem with
    | (none, memory) => .ok (none, memory)
    | (some reference, memory) => do
        let record ← memory.read item
        let memory ← memory.modify (some reference) (fun _ => { record with
          string := none
          type_ := { record.type_ with isReference := true }
          next := none
          prev := none })
        .ok (some reference, memory)

/-- `add_item_to_array`.  A first child points back at itself.  Otherwise the last
child is found through the `prev` of the head; if that is NULL, the call reports
success although the item is linked nowhere. -/
def addItemToArray (array item : Pointer) : Except MemoryFault (Bool × Memory) :=
  if item.isNone ∨ array.isNone ∨ array = item then .ok (false, memory)
  else do
    let container ← memory.read array
    if container.child.isNone then do
      -- list is empty, start new one
      let memory ← memory.modify array (fun record => { record with child := item })
      let memory ← memory.modify item (fun record => { record with prev := item, next := none })
      .ok (true, memory)
    else do
      let first ← memory.read container.child
      if first.prev.isSome then do
        -- append to the end
        let memory ← memory.suffixObject first.prev item
        let container ← memory.read array
        let memory ← memory.modify container.child (fun record => { record with prev := item })
        .ok (true, memory)
      else .ok (true, memory)

/-- `add_item_to_object`.  The name is copied unless it is a constant one, and only
then is the old name of the item given back; a refused copy leaves the item as it
was.  The pointer may be the item's own name, which a constant key turns into a
dangling one. -/
def addItemToObject (object : Pointer) (string : Option CharPointer) (item : Pointer) (constantKey : Bool) :
    Except MemoryFault (Bool × Memory) :=
  if object.isNone ∨ string.isNone ∨ item.isNone ∨ object = item then .ok (false, memory)
  else do
    let (newKey, memory) ← (if constantKey then .ok (string, memory) else memory.strdup string)
    if newKey.isNone then .ok (false, memory)
    else do
      let record ← memory.read item
      let memory ← (if !record.type_.stringIsConst && record.string.isSome then memory.dealloc record.string
        else .ok memory)
      let memory ← memory.modify item (fun record => { record with
        string := newKey
        type_ := { record.type_ with stringIsConst := constantKey } })
      memory.addItemToArray object item

/-- `cjson_add_item_reference_to_array`. -/
def cjsonAddItemReferenceToArray (array item : Pointer) : Except MemoryFault (Bool × Memory) :=
  if array.isNone then .ok (false, memory)
  else do
    let (reference, memory) ← memory.createReference item
    memory.addItemToArray array reference

/-- `cjson_add_item_reference_to_object`.  The result of adding the reference is
passed on, but the reference itself is not: if its name is refused, nothing points at
it any more. -/
def cjsonAddItemReferenceToObject (object : Pointer) (string : Option CharPointer) (item : Pointer) :
    Except MemoryFault (Bool × Memory) :=
  if object.isNone ∨ string.isNone then .ok (false, memory)
  else do
    let (reference, memory) ← memory.createReference item
    memory.addItemToObject object string reference false

/-! ## Creating -/

/-- The common part of `cjson_create_*`: a new node with these fields. -/
def createNode (record : Record) : Except MemoryFault (Pointer × Memory) :=
  match memory.newItem with
  | (none, memory) => .ok (none, memory)
  | (some node, memory) => do
      let memory ← memory.modify (some node) (fun _ => record)
      .ok (some node, memory)

/-- `cjson_create_null`. -/
def cjsonCreateNull : Except MemoryFault (Pointer × Memory) :=
  memory.createNode { type_ := { base := .null } }

/-- `cjson_create_true`. -/
def cjsonCreateTrue : Except MemoryFault (Pointer × Memory) :=
  memory.createNode { type_ := { base := .true } }

/-- `cjson_create_false`. -/
def cjsonCreateFalse : Except MemoryFault (Pointer × Memory) :=
  memory.createNode { type_ := { base := .false } }

/-- `cjson_create_bool`. -/
def cjsonCreateBool (boolean : Bool) : Except MemoryFault (Pointer × Memory) :=
  memory.createNode { type_ := { base := if boolean then .true else .false } }

/-- `cjson_create_number`. -/
def cjsonCreateNumber (num : Binary64) : Except MemoryFault (Pointer × Memory) :=
  memory.createNode { type_ := { base := .number }, valuedouble := num, valueint := saturate num }

/-- `cjson_create_array`. -/
def cjsonCreateArray : Except MemoryFault (Pointer × Memory) :=
  memory.createNode { type_ := { base := .array } }

/-- `cjson_create_object`. -/
def cjsonCreateObject : Except MemoryFault (Pointer × Memory) :=
  memory.createNode { type_ := { base := .object } }

/-- `cjson_create_string` and `cjson_create_raw`: a node, and then a copy of the
text.  If there is no copy, because the text is NULL or the request is refused, the
node is deleted again and the call answers NULL. -/
def createText (fuel : Nat) (base : BaseType) (string : Option CharPointer) :
    Except MemoryFault (Pointer × Memory) := do
  let (item, memory) ← memory.createNode { type_ := { base := base } }
  if item.isNone then .ok (none, memory)
  else do
    let (copy, memory) ← memory.strdup string
    let memory ← memory.modify item (fun record => { record with valuestring := copy })
    if copy.isNone then do
      let memory ← memory.cjsonDelete fuel item
      .ok (none, memory)
    else .ok (item, memory)

/-- `cjson_create_string`. -/
def cjsonCreateString (fuel : Nat) (string : Option CharPointer) : Except MemoryFault (Pointer × Memory) :=
  memory.createText fuel .string string

/-- `cjson_create_raw`. -/
def cjsonCreateRaw (fuel : Nat) (raw : Option CharPointer) : Except MemoryFault (Pointer × Memory) :=
  memory.createText fuel .raw raw

/-- A child behind the children that a node has, of which `last` is the last one. -/
def attachChild (parent last newchild : Pointer) : Except MemoryFault Memory :=
  if last.isSome then memory.suffixObject last newchild
  else memory.modify parent (fun record => { record with child := newchild })

/-- `if !(*parent).child.is_null() { (*(*parent).child).prev = last; }`. -/
def closeChildren (parent last : Pointer) : Except MemoryFault Memory := do
  let record ← memory.read parent
  if record.child.isSome then memory.modify record.child (fun record => { record with prev := last })
  else .ok memory

end Memory

/-- The loop of `create_number_array`, over the elements that are left, with `p` the
last one that has been linked.  On failure the array has been deleted with everything
that was put into it. -/
def Memory.createElements {α : Type} (fuel : Nat) (element : α -> Memory -> Except MemoryFault (Pointer × Memory))
    (a : Pointer) : List α -> Pointer -> Memory -> Except MemoryFault (Option Pointer × Memory)
  | [], p, memory => .ok (some p, memory)
  | number :: numbers, p, memory => do
      let (n, memory) ← element number memory
      if n.isNone then do
        let memory ← memory.cjsonDelete fuel a
        .ok (none, memory)
      else do
        let memory ← memory.attachChild a p n
        createElements fuel element a numbers n memory

namespace Memory

variable (memory : Memory)

/-- `create_number_array`, with the checks that its callers make: no numbers or a
negative count give NULL.  A count beyond the end of the numbers reads behind them.
The array is closed with the `prev` of its head at the very end. -/
def createNumberArray {α : Type} (fuel : Nat)
    (element : α -> Memory -> Except MemoryFault (Pointer × Memory)) (numbers : Option (List α)) (count : Int) :
    Except MemoryFault (Pointer × Memory) :=
  match numbers with
  | none => .ok (none, memory)
  | some numbers =>
      if count < 0 then .ok (none, memory)
      -- `*numbers.add(i)` behind the end
      else if numbers.length < count.toNat then .error .dangling
      else do
        let (a, memory) ← memory.cjsonCreateArray
        if a.isNone then .ok (none, memory)
        else
          match ← createElements fuel element a (numbers.take count.toNat) none memory with
          | (none, memory) => .ok (none, memory)
          | (some last, memory) => do
              let memory ← memory.closeChildren a last
              .ok (a, memory)

/-- `cjson_create_int_array`. -/
def cjsonCreateIntArray (fuel : Nat) (numbers : Option (List Int)) (count : Int) :
    Except MemoryFault (Pointer × Memory) :=
  memory.createNumberArray fuel (fun number memory => memory.cjsonCreateNumber (.ofInt number)) numbers count

/-- `cjson_create_float_array` and `cjson_create_double_array`; a `float` is a `double`. -/
def cjsonCreateDoubleArray (fuel : Nat) (numbers : Option (List Binary64)) (count : Int) :
    Except MemoryFault (Pointer × Memory) :=
  memory.createNumberArray fuel (fun number memory => memory.cjsonCreateNumber number) numbers count

/-- `cjson_create_string_array`. -/
def cjsonCreateStringArray (fuel : Nat) (strings : Option (List (Option CharPointer))) (count : Int) :
    Except MemoryFault (Pointer × Memory) :=
  memory.createNumberArray fuel (fun string memory => memory.cjsonCreateString fuel string) strings count

/-- The common part of `cjson_add_*_to_object`: add what has been created, or delete
it.  A creation that failed is handed on as NULL, which the adding refuses and the
deletion ignores. -/
def addCreated (fuel : Nat) (created : Except MemoryFault (Pointer × Memory)) (object : Pointer)
    (name : Option CharPointer) : Except MemoryFault (Pointer × Memory) := do
  let (item, memory) ← created
  let (added, memory) ← memory.addItemToObject object name item false
  if added then .ok (item, memory)
  else do
    let memory ← memory.cjsonDelete fuel item
    .ok (none, memory)

section AddToObject

variable (fuel : Nat) (object : Pointer) (name : Option CharPointer)

/-- `cjson_add_null_to_object`. -/
def cjsonAddNullToObject : Except MemoryFault (Pointer × Memory) :=
  addCreated fuel memory.cjsonCreateNull object name

/-- `cjson_add_true_to_object`. -/
def cjsonAddTrueToObject : Except MemoryFault (Pointer × Memory) :=
  addCreated fuel memory.cjsonCreateTrue object name

/-- `cjson_add_false_to_object`. -/
def cjsonAddFalseToObject : Except MemoryFault (Pointer × Memory) :=
  addCreated fuel memory.cjsonCreateFalse object name

/-- `cjson_add_object_to_object`. -/
def cjsonAddObjectToObject : Except MemoryFault (Pointer × Memory) :=
  addCreated fuel memory.cjsonCreateObject object name

/-- `cjson_add_array_to_object`. -/
def cjsonAddArrayToObject : Except MemoryFault (Pointer × Memory) :=
  addCreated fuel memory.cjsonCreateArray object name

/-- `cjson_add_bool_to_object`. -/
def cjsonAddBoolToObject (boolean : Bool) : Except MemoryFault (Pointer × Memory) :=
  addCreated fuel (memory.cjsonCreateBool boolean) object name

/-- `cjson_add_number_to_object`. -/
def cjsonAddNumberToObject (number : Binary64) : Except MemoryFault (Pointer × Memory) :=
  addCreated fuel (memory.cjsonCreateNumber number) object name

/-- `cjson_add_string_to_object`. -/
def cjsonAddStringToObject (string : Option CharPointer) : Except MemoryFault (Pointer × Memory) :=
  addCreated fuel (memory.cjsonCreateString fuel string) object name

/-- `cjson_add_raw_to_object`. -/
def cjsonAddRawToObject (raw : Option CharPointer) : Except MemoryFault (Pointer × Memory) :=
  addCreated fuel (memory.cjsonCreateRaw fuel raw) object name

end AddToObject

/-! ## Setting a string -/

/-- `first.add(length) < second`.  Addresses of different blocks are compared as the
blocks are ordered, so that texts in different blocks never count as overlapping. -/
def endsBefore (first : CharPointer) (length : Nat) (second : CharPointer) : Bool :=
  first.block < second.block || (first.block == second.block && first.offset + length < second.offset)

/-- `cjson_set_valuestring`.  A text that is no longer than the old one is copied over
it in place, unless the two overlap; a longer one is copied into a new block before
the old one is given back.  Anything but a string of its own is refused, and a refusal
leaves the node as it was. -/
def cjsonSetValuestring (object : Pointer) (valuestring : Option CharPointer) :
    Except MemoryFault (Option CharPointer × Memory) :=
  if object.isNone then .ok (none, memory)
  else do
    let record ← memory.read object
    if record.type_.base ≠ .string ∨ record.type_.isReference then .ok (none, memory)
    else
      match record.valuestring, valuestring with
      | some old, some given => do
          let v1 ← memory.cString (some given)
          let v2 ← memory.cString (some old)
          if v1.length ≤ v2.length then
            -- strcpy does not handle overlapping strings
            if !(endsBefore given v1.length old || endsBefore old v2.length given) then .ok (none, memory)
            else do
              let memory ← memory.cstrCopy (some old) v1
              .ok (some old, memory)
          else do
            let (copy, memory) ← memory.strdup (some given)
            if copy.isNone then .ok (none, memory)
            else do
              let memory ← memory.dealloc (some old)
              let memory ← memory.modify object (fun record => { record with valuestring := copy })
              .ok (copy, memory)
      | _, _ => .ok (none, memory)

/-! ## Duplicating -/

/-- A string field of a copy: NULL stays NULL, and `none` says that there is no
memory for the copy. -/
def duplicateText (string : Option CharPointer) : Except MemoryFault (Option (Option CharPointer) × Memory) :=
  if string.isNone then .ok (some none, memory)
  else do
    let (copy, memory) ← memory.strdup string
    .ok (copy.map some, memory)

/-- The member name of a copy: a constant name is shared. -/
def duplicateName (record : Record) : Except MemoryFault (Option (Option CharPointer) × Memory) :=
  if record.string.isSome && record.type_.stringIsConst then .ok (some record.string, memory)
  else memory.duplicateText record.string

/-- `goto_fail`. -/
def gotoFail (fuel : Nat) (newitem : Pointer) : Except MemoryFault (Pointer × Memory) := do
  let memory ← memory.cjsonDelete fuel newitem
  .ok (none, memory)

/-- `duplicate_rec` up to the loop over the children: a node with copies of the
fields. -/
def duplicateNode (fuel : Nat) (item : Pointer) : Except MemoryFault (Pointer × Memory) :=
  match memory.newItem with
  | (none, memory) => .ok (none, memory)
  | (some newitem, memory) => do
      let record ← memory.read item
      let memory ← memory.modify (some newitem) (fun copy => { copy with
        type_ := { record.type_ with isReference := false }
        valueint := record.valueint
        valuedouble := record.valuedouble })
      match ← memory.duplicateText record.valuestring with
      | (none, memory) => memory.gotoFail fuel (some newitem)
      | (some valuestring, memory) => do
          let memory ← memory.modify (some newitem) (fun copy => { copy with valuestring := valuestring })
          match ← memory.duplicateName record with
          | (none, memory) => memory.gotoFail fuel (some newitem)
          | (some string, memory) => do
              let memory ← memory.modify (some newitem) (fun copy => { copy with string := string })
              .ok (some newitem, memory)

end Memory

mutual

/-- `duplicate_rec`: a copy of the node, and below it, if asked for, copies of its
children.  The copy is no reference, whatever the original is.  As soon as one child
cannot be copied the whole copy is deleted, and the answer is NULL. -/
def Memory.duplicateRec : Nat -> Memory -> Pointer -> Nat -> Bool -> Except MemoryFault (Pointer × Memory)
  | 0, _, _, _, _ => .error .outOfFuel
  | fuel + 1, memory, item, depth, recurse =>
      if item.isNone then .ok (none, memory)
      else do
        let (newitem, memory) ← memory.duplicateNode (fuel + 1) item
        if newitem.isNone then .ok (none, memory)
        else if !recurse then .ok (newitem, memory)
        else do
          let record ← memory.read item
          match ← Memory.duplicateChildren fuel memory newitem record.child none depth with
          | (none, memory) => .ok (none, memory)
          | (some last, memory) => do
              let memory ← memory.closeChildren newitem last
              .ok (newitem, memory)

/-- The loop of `duplicate_rec`: from `child` on, behind the copy `next`.  On
failure the new node has been deleted. -/
def Memory.duplicateChildren : Nat -> Memory -> Pointer -> Pointer -> Pointer -> Nat ->
    Except MemoryFault (Option Pointer × Memory)
  | 0, _, _, _, _, _ => .error .outOfFuel
  | fuel + 1, memory, newitem, child, next, depth =>
      if child.isNone then .ok (some next, memory)
      else if Heap.circularLimit ≤ depth then do
        let memory ← memory.cjsonDelete (fuel + 1) newitem
        .ok (none, memory)
      else do
        let (newchild, memory) ← Memory.duplicateRec fuel memory child (depth + 1) true
        if newchild.isNone then do
          let memory ← memory.cjsonDelete (fuel + 1) newitem
          .ok (none, memory)
        else do
          let memory ← memory.attachChild newitem next newchild
          let record ← memory.read child
          Memory.duplicateChildren fuel memory newitem record.next newchild depth

end

/-- `cjson_duplicate`. -/
def Memory.cjsonDuplicate (fuel : Nat) (memory : Memory) (item : Pointer) (recurse : Bool) :
    Except MemoryFault (Pointer × Memory) :=
  memory.duplicateRec fuel item 0 recurse

end CJson
