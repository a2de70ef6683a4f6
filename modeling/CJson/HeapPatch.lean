import CJson.HeapSort
import CJson.Manip
import CJson.Patch

/-!
# Patches on the nodes in memory

`apply_patch` of `utils.rs` and what it calls, pointer by pointer: the walk along a
JSON Pointer, the comparison that sorts what it compares, the copies, and the
overwriting of a whole node when the path is empty.
-/

namespace CJson

open CString

namespace Heap

/-! ## Looking up -/

/-- `cJSON_IsArray` and its like: the type without its flags.  NULL is of no type, so
the question may be asked of the result of a lookup that failed. -/
def hasBase (heap : Heap) (item : Pointer) (base : BaseType) : Except MemoryFault Bool :=
  if item.isNone then .ok false
  else do
    let fields ← heap.fields item
    .ok (fields.type_.base == base)

/-- `cjson_utils_strdup`. -/
def utilsStrdup (heap : Heap) (string : Option Bytes) : Except MemoryFault (Option Bytes × Heap) :=
  match string with
  | none => .error .null
  | some string => .ok ((heap.strdup string).1.map cjsonUtilsStrdup, (heap.strdup string).2)

/-- The loop of `get_item_from_pointer` that looks for a member.  Each name is
compared with the token at the front of the pointer, whose escapes are decoded on the
way; NULL says that no member answers to it. -/
def findMemberLoop (heap : Heap) (pointer : Bytes) (caseSensitive : Bool) :
    Nat -> Pointer -> Except MemoryFault Pointer
  | 0, _ => .error .outOfFuel
  | fuel + 1, currentElement =>
      if currentElement.isNone then .ok currentElement
      else do
        let fields ← heap.fields currentElement
        if comparePointers fields.string pointer caseSensitive then .ok currentElement
        else do
          let next ← heap.next currentElement
          heap.findMemberLoop pointer caseSensitive fuel next

/-- The loop that skips to the next path token or end of string. -/
def skipToken (pointer : Bytes) : Bytes := pointer.dropWhile (fun byte => byte ≠ 0 ∧ byte ≠ slash)

/-- The loop of `get_item_from_pointer`, one token after the other.  An element that
is neither an array nor an object has nothing below it, and a token that is no index
leads nowhere in an array.  The walk ends where the pointer does, or as soon as
nothing has been found. -/
def followPointer (heap : Heap) (caseSensitive : Bool) : Nat -> Bytes -> Pointer -> Except MemoryFault Pointer
  | 0, _, _ => .error .outOfFuel
  | fuel + 1, pointer, currentElement =>
      if first pointer = slash ∧ currentElement.isSome then do
        let pointer := pointer.tail
        if ← heap.hasBase currentElement .array then
          match decodeArrayIndexFromPointer pointer with
          | none => .ok none
          | some index => do
              let currentElement ← heap.getArrayItem currentElement index
              heap.followPointer caseSensitive fuel (skipToken pointer) currentElement
        else if ← heap.hasBase currentElement .object then do
          let child ← heap.child currentElement
          let currentElement ← heap.findMemberLoop pointer caseSensitive (fuel + 1) child
          heap.followPointer caseSensitive fuel (skipToken pointer) currentElement
        else .ok none
      else .ok currentElement

/-- `get_item_from_pointer`: NULL for a pointer that is NULL, and otherwise the walk
along its tokens. -/
def getItemFromPointer (fuel : Nat) (heap : Heap) (object : Pointer) (pointer : Option Bytes)
    (caseSensitive : Bool) : Except MemoryFault Pointer :=
  match pointer with
  | none => .ok none
  | some pointer => heap.followPointer caseSensitive fuel pointer object

/-! ## Comparing -/

mutual

/-- `compare_json`.  Nodes of different types differ.  The members of two objects are
sorted in place before they are compared one by one, so the two trees may come back in
another order even if they turn out to differ; strings without a value are
dereferenced. -/
def compareJson : Nat -> Heap -> Pointer -> Pointer -> Bool -> Except MemoryFault (Bool × Heap)
  | 0, _, _, _, _ => .error .outOfFuel
  | fuel + 1, heap, a, b, caseSensitive =>
      if a.isNone ∨ b.isNone then .ok (false, heap)
      else do
        let aFields ← heap.fields a
        let bFields ← heap.fields b
        if aFields.type_.base ≠ bFields.type_.base then
          -- mismatched type
          .ok (false, heap)
        else
          match aFields.type_.base with
          | .number =>
              .ok (decide (aFields.valueint = bFields.valueint) &&
                compareDouble aFields.valuedouble bFields.valuedouble, heap)
          | .string =>
              match cstrCmp aFields.valuestring bFields.valuestring with
              | none => .error .null
              | some order => .ok (decide (order = 0), heap)
          | .array => do
              let a ← heap.child a
              let b ← heap.child b
              compareChildren fuel heap a b caseSensitive false
          | .object => do
              let heap ← sortObject (fuel + 1) heap a caseSensitive
              let heap ← sortObject (fuel + 1) heap b caseSensitive
              let a ← heap.child a
              let b ← heap.child b
              compareChildren fuel heap a b caseSensitive true
          | _ =>
              -- null, true or false
              .ok (true, heap)

/-- The loops of `compare_json` along two child lists; that of objects compares the
names as well.  Two lists are the same if both of them end at once. -/
def compareChildren : Nat -> Heap -> Pointer -> Pointer -> Bool -> Bool -> Except MemoryFault (Bool × Heap)
  | 0, _, _, _, _, _ => .error .outOfFuel
  | fuel + 1, heap, a, b, caseSensitive, named =>
      if a.isSome ∧ b.isSome then do
        let order ← if named then heap.compareNames a b caseSensitive else .ok 0
        if order ≠ 0 then
          -- missing member
          .ok (false, heap)
        else do
          let (equal, heap) ← compareJson fuel heap a b caseSensitive
          if !equal then .ok (false, heap)
          else do
            let a ← heap.next a
            let b ← heap.next b
            compareChildren fuel heap a b caseSensitive named
      else .ok (a.isNone && b.isNone, heap)

end

/-! ## Detaching and inserting -/

/-- `detach_item_from_array` of `utils.rs`.  The neighbours are linked to each other;
at the front the array gets a new head, and at the end the head gets the new last node
as its `prev`.  The item itself is left without neighbours. -/
def detachItemFromArray (heap : Heap) (array : Pointer) (which : Nat) : Except MemoryFault (Pointer × Heap) := do
  let child ← heap.child array
  let c ← heap.getArrayItemLoop which child
  if c.isNone then
    -- item doesn't exist
    .ok (none, heap)
  else do
    let next ← heap.next c
    let prev ← heap.prev c
    -- not the first element
    let heap ← if c ≠ child then heap.setNext prev next else .ok heap
    let heap ← if next.isSome then heap.setPrev next prev else .ok heap
    let heap ←
      if c = child then heap.setChild array next
      else if next.isNone then heap.setPrev child prev
      else .ok heap
    -- make sure the detached item doesn't point anywhere anymore
    let heap ← heap.setPrev c none
    let heap ← heap.setNext c none
    .ok (c, heap)

/-- `detach_path`: the item, and the parent that it was taken from.  The last token is
decoded and names a position in an array or a member of an object; the member is
always looked for without regard to case.  The parent is not asked whether it merely
borrows its children. -/
def detachPath (fuel : Nat) (heap : Heap) (object : Pointer) (path : Option Bytes) (caseSensitive : Bool) :
    Except MemoryFault (Pointer × Pointer × Heap) := do
  match ← heap.utilsStrdup path with
  | (none, heap) => .ok (none, none, heap)
  | (some copy, heap) =>
      match splitPointer copy with
      | none => .ok (none, none, heap)
      | some (parentPointer, childPointer) => do
          let parent ← getItemFromPointer fuel heap object (some parentPointer) caseSensitive
          let childPointer := decodePointerInplace childPointer
          if ← heap.hasBase parent .array then
            match decodeArrayIndexFromPointer childPointer with
            | none => .ok (none, parent, heap)
            | some index => do
                let (item, heap) ← heap.detachItemFromArray parent index
                .ok (item, parent, heap)
          else if ← heap.hasBase parent .object then do
            let (item, heap) ← cjsonDetachItemFromObject fuel heap parent (some childPointer) false
            .ok (item, parent, heap)
          else .ok (none, parent, heap)

/-- The loop of `insert_item_in_array`: the node it stops at, and the steps that are
left. -/
def insertLoop (heap : Heap) : Nat -> Pointer -> Except MemoryFault (Pointer × Nat)
  | 0, child => .ok (child, 0)
  | which + 1, child =>
      if child.isNone then .ok (child, which + 1)
      else do
        let next ← heap.next child
        heap.insertLoop which next

/-- `insert_item_in_array`: in front of the child with that index, or behind the last
child if the index is the length.  Beyond that nothing is changed and the answer says
so. -/
def insertItemInArray (heap : Heap) (array : Pointer) (which : Nat) (newitem : Pointer) :
    Except MemoryFault (Bool × Heap) := do
  let head ← heap.child array
  let (child, which) ← heap.insertLoop which head
  if 0 < which then
    -- item is after the end of the array
    .ok (false, heap)
  else if child.isNone then do
    let (_, heap) ← heap.addItemToArray array newitem
    .ok (true, heap)
  else do
    -- insert into the linked list
    let heap ← heap.setNext newitem child
    let prev ← heap.prev child
    let heap ← heap.setPrev newitem prev
    let heap ← heap.setPrev child newitem
    -- was it at the beginning
    if child = head then do
      let heap ← heap.setChild array newitem
      .ok (true, heap)
    else do
      let before ← heap.prev newitem
      let heap ← heap.setNext before newitem
      .ok (true, heap)

/-! ## Applying a patch -/

/-- `decode_patch_operation`: the member `op` has to be a string, and its text has to
be one of the six operations, letter by letter.  Anything else is the operation that
no patch has. -/
def decodePatchOperation (fuel : Nat) (heap : Heap) (patch : Pointer) (caseSensitive : Bool) :
    Except MemoryFault PatchOperation := do
  let operation ← heap.getObjectItem fuel patch (some opName) caseSensitive
  if !(← heap.hasBase operation .string) then .ok .invalid
  else do
    let fields ← heap.fields operation
    match fields.valuestring with
    | none => .error .null
    | some valuestring =>
        .ok (if compareBy id valuestring addText = 0 then .add
          else if compareBy id valuestring removeText = 0 then .remove
          else if compareBy id valuestring replaceText = 0 then .replace
          else if compareBy id valuestring moveText = 0 then .move
          else if compareBy id valuestring copyText = 0 then .copy
          else if compareBy id valuestring testText = 0 then .test
          else .invalid)

/-- The contents of a node, as `overwrite_item` copies them: `*root = replacement`
takes the links along with the rest. -/
structure Contents where
  next : Pointer := none
  prev : Pointer := none
  child : Pointer := none
  fields : Fields

/-- The name and the string value of a node that is overwritten: the code does not ask for
the flags. -/
def overwrittenTexts (fields : Fields) : List Release :=
  (if fields.string.isSome then [.string fields.type_] else []) ++
    if fields.valuestring.isSome then [.valuestring fields.type_] else []

/-- `overwrite_item`: the name, the string value and the children of the root are
given back, and the root becomes a bit by bit copy of the replacement, neighbours
included.  Nobody asks for the flags of the root, so what it merely borrows is given
back too. -/
def overwriteItem (fuel : Nat) (heap : Heap) (root : Pointer) (replacement : Contents) :
    Except MemoryFault Heap :=
  if root.isNone then .ok heap
  else do
    let fields ← heap.fields root
    let heap := heap.record (overwrittenTexts fields)
    let child ← heap.child root
    let heap ← if child.isSome then cjsonDelete fuel (heap.record [.child fields.type_]) child else .ok heap
    let heap ← heap.setNext root replacement.next
    let heap ← heap.setPrev root replacement.prev
    let heap ← heap.setChild root replacement.child
    heap.setFields root (fun _ => replacement.fields)

/-- `ptr::read`: everything that a node holds, its links among it. -/
def readNode (heap : Heap) (node : Pointer) : Except MemoryFault Contents := do
  let next ← heap.next node
  let prev ← heap.prev node
  let child ← heap.child node
  let fields ← heap.fields node
  .ok ⟨next, prev, child, fields⟩

/-- The special case of `apply_patch` for the root, which is written over in place
because its address has to stay.  A removal leaves a node of no type; an addition or a
replacement copies the value into the root, releases the node of the copy, and drops
the name that came along. -/
def overwriteRoot (fuel : Nat) (heap : Heap) (object patch : Pointer) (operation : PatchOperation)
    (caseSensitive : Bool) : Except MemoryFault (Nat × Heap) :=
  if operation = .remove then do
    let heap ← overwriteItem fuel heap object { fields := { type_ := { base := .invalid } } }
    .ok (0, heap)
  else do
    let value ← heap.getObjectItem fuel patch (some valueName) caseSensitive
    if value.isNone then
      -- missing "value" for add/replace.
      .ok (7, heap)
    else do
      let (value, heap) ← heap.cjsonDuplicate fuel value true
      if value.isNone then
        -- out of memory for add/replace.
        .ok (8, heap)
      else do
        let replacement ← heap.readNode value
        let heap ← overwriteItem fuel heap object replacement
        -- delete the duplicated value
        let heap ← heap.release value
        -- the string "value" isn't needed
        let fields ← heap.fields object
        let heap := heap.record (if fields.string.isSome then [.string fields.type_] else [])
        let heap ← heap.setFields object (fun fields => { fields with string := none })
        .ok (0, heap)

/-- The end of `apply_patch`: a value that has not been added is deleted.  If it has been
taken from a list, `lender` is the parent there. -/
def dropValue (fuel : Nat) (heap : Heap) (status : Nat) (lender value : Pointer) :
    Except MemoryFault (Nat × Heap) := do
  let heap ← cjsonDelete fuel (heap.recordChild lender value) value
  .ok (status, heap)

/-- The value is added to the parent that the path leads to: at the end of an array
for `-`, in front of the child with an index, or as a member of an object in the place
of the member of that name.  Whenever this fails the value is deleted. -/
def addToParent (fuel : Nat) (heap : Heap) (parent : Pointer) (childPointer : Bytes) (lender value : Pointer)
    (caseSensitive : Bool) : Except MemoryFault (Nat × Heap) :=
  if parent.isNone then
    -- Couldn't find object to add to.
    dropValue fuel heap 9 lender value
  else do
    if ← heap.hasBase parent .array then
      if compareBy id childPointer [45] = 0 then do
        let (_, heap) ← heap.addItemToArray parent value
        .ok (0, heap)
      else
        match decodeArrayIndexFromPointer childPointer with
        | none => dropValue fuel heap 11 lender value
        | some index => do
            let (inserted, heap) ← heap.insertItemInArray parent index value
            if inserted then .ok (0, heap) else dropValue fuel heap 10 lender value
    else if ← heap.hasBase parent .object then do
      let heap ← cjsonDeleteItemFromObject fuel heap parent (some childPointer) caseSensitive
      let (_, heap) ← heap.addItemToObject parent (some ⟨childPointer, none⟩) value false
      .ok (0, heap)
    else
      -- parent is not an object
      dropValue fuel heap 9 lender value

/-- The member `path` is read again for the place where the value is added, since its
string may not be split in two; the work is done on a copy.  A path without a slash
has no last token, and there is nothing to add the value to. -/
def addToPath (fuel : Nat) (heap : Heap) (object path lender value : Pointer) (caseSensitive : Bool) :
    Except MemoryFault (Nat × Heap) := do
  let fields ← heap.fields path
  -- split pointer in parent and child
  match ← heap.utilsStrdup fields.valuestring with
  | (none, heap) => dropValue fuel heap 9 lender value
  | (some copy, heap) =>
      match splitPointer copy with
      | none => do
          -- the parent is looked up although there is no child
          let _ ← getItemFromPointer fuel heap object (some copy) caseSensitive
          dropValue fuel heap 9 lender value
      | some (parentPointer, childPointer) => do
          let parent ← getItemFromPointer fuel heap object (some parentPointer) caseSensitive
          addToParent fuel heap parent (decodePointerInplace childPointer) lender value caseSensitive

/-- `apply_patch` from the lookup of the value on, for an `add` or a `replace`.  For a
`replace` the old value is gone by now, also if there is no new one. -/
def addValue (fuel : Nat) (heap : Heap) (object patch path : Pointer) (caseSensitive : Bool) :
    Except MemoryFault (Nat × Heap) := do
  let value ← heap.getObjectItem fuel patch (some valueName) caseSensitive
  if value.isNone then
    -- missing "value" for add/replace.
    .ok (7, heap)
  else do
    let (value, heap) ← heap.cjsonDuplicate fuel value true
    if value.isNone then
      -- out of memory for add/replace.
      .ok (8, heap)
    else addToPath fuel heap object path none value caseSensitive

/-- `apply_patch` from the lookup of `from` on, for a `move` or a `copy`.  A `move`
takes the value out of the document before the path is looked up, so a path below the
value leads nowhere; a `copy` leaves it and adds a duplicate. -/
def transferValue (fuel : Nat) (heap : Heap) (object patch path : Pointer) (operation : PatchOperation)
    (caseSensitive : Bool) : Except MemoryFault (Nat × Heap) := do
  let source ← heap.getObjectItem fuel patch (some fromName) caseSensitive
  if !(← heap.hasBase source .string) then
    -- missing "from" for copy/move.
    .ok (4, heap)
  else do
    let fields ← heap.fields source
    if operation = .move then do
      let (value, lender, heap) ← detachPath fuel heap object fields.valuestring caseSensitive
      if value.isNone then .ok (5, heap) else addToPath fuel heap object path lender value caseSensitive
    else do
      let value ← getItemFromPointer fuel heap object fields.valuestring caseSensitive
      if value.isNone then .ok (5, heap)
      else do
        let (value, heap) ← heap.cjsonDuplicate fuel value true
        if value.isNone then
          -- out of memory for copy/move.
          .ok (6, heap)
        else addToPath fuel heap object path none value caseSensitive

/-- The operations with a path that is not the root's.  A `remove` and a `replace`
begin by taking the old value out of the document and deleting it; a `remove` is done
then. -/
def applyAtPath (fuel : Nat) (heap : Heap) (object patch path : Pointer) (pointer : Bytes)
    (operation : PatchOperation) (caseSensitive : Bool) : Except MemoryFault (Nat × Heap) :=
  if operation = .remove ∨ operation = .replace then do
    -- Get rid of old.
    let (oldItem, parent, heap) ← detachPath fuel heap object (some pointer) caseSensitive
    if oldItem.isNone then .ok (13, heap)
    else do
      let heap ← cjsonDelete fuel (heap.recordChild parent oldItem) oldItem
      if operation = .remove then
        -- For Remove, this job is done.
        .ok (0, heap)
      else addValue fuel heap object patch path caseSensitive
  else if operation = .move ∨ operation = .copy then
    transferValue fuel heap object patch path operation caseSensitive
  else addValue fuel heap object patch path caseSensitive

/-- The `test` operation: the value at the path is compared with the one in the
patch.  A missing value on either side is NULL, which is equal to nothing. -/
def testPatch (fuel : Nat) (heap : Heap) (object patch path : Pointer) (caseSensitive : Bool) :
    Except MemoryFault (Nat × Heap) := do
  let fields ← heap.fields path
  let a ← getItemFromPointer fuel heap object fields.valuestring caseSensitive
  let b ← heap.getObjectItem fuel patch (some valueName) caseSensitive
  let (equal, heap) ← compareJson fuel heap a b caseSensitive
  .ok (if equal then 0 else 1, heap)

/-- `apply_patch`.  A patch needs a path that is a string and an operation that is
known, in this order.  A `test` is told apart before the root is, and the root is told
apart before any other path, except for a `move` or a `copy`. -/
def applyPatch (fuel : Nat) (heap : Heap) (object patch : Pointer) (caseSensitive : Bool) :
    Except MemoryFault (Nat × Heap) := do
  let path ← heap.getObjectItem fuel patch (some pathName) caseSensitive
  if !(← heap.hasBase path .string) then
    -- malformed patch.
    .ok (2, heap)
  else
    match ← heap.decodePatchOperation fuel patch caseSensitive with
    | .invalid => .ok (3, heap)
    | .test => testPatch fuel heap object patch path caseSensitive
    | operation => do
        let fields ← heap.fields path
        match fields.valuestring with
        | none => .error .null
        | some pointer =>
            if first pointer = 0 ∧ operation ≠ .move ∧ operation ≠ .copy then
              overwriteRoot fuel heap object patch operation caseSensitive
            else applyAtPath fuel heap object patch path pointer operation caseSensitive

/-- The loop of `cJSONUtils_ApplyPatches`: the patches one after the other, up to the
first one that fails.  What the earlier ones did to the document stays. -/
def applyPatchesLoop (object : Pointer) (caseSensitive : Bool) :
    Nat -> Heap -> Pointer -> Except MemoryFault (Nat × Heap)
  | 0, _, _ => .error .outOfFuel
  | fuel + 1, heap, currentPatch =>
      if currentPatch.isNone then .ok (0, heap)
      else do
        let (status, heap) ← applyPatch (fuel + 1) heap object currentPatch caseSensitive
        if status ≠ 0 then .ok (status, heap)
        else do
          let next ← heap.next currentPatch
          applyPatchesLoop object caseSensitive fuel heap next

/-- `cJSONUtils_ApplyPatches` and its case-sensitive variant.  Patches that are no
array fail before the document is looked at. -/
def cjsonUtilsApplyPatches (fuel : Nat) (heap : Heap) (object patches : Pointer) (caseSensitive : Bool) :
    Except MemoryFault (Nat × Heap) := do
  if !(← heap.hasBase patches .array) then
    -- malformed patches.
    .ok (1, heap)
  else do
    let child ← heap.child patches
    applyPatchesLoop object caseSensitive fuel heap child

end Heap
end CJson
