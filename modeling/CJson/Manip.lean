import CJson.Heap
import CJson.Parse

/-!
# Tree manipulation on the heap

The functions of `manip.rs` that create nodes and rewire child lists, pointer
write by pointer write.  Loops along a list, and the recursion over a tree, run
on a budget.
-/

namespace CJson

open CString

/-- A name that is given to a call: the text that the pointer leads to, and the node whose
`string` field the caller has taken it from, if it is one. -/
structure Name where
  bytes : Bytes
  keyOf : Option Addr := none
  deriving DecidableEq

/-- Whether the name of a node is freed with it, or when it gets another one. -/
def Fields.ownsName (fields : Fields) : Bool := !fields.type_.stringIsConst && fields.string.isSome

/-- The name that a node owns. -/
def Fields.nameReleases (fields : Fields) : List Release :=
  if fields.ownsName then [.string fields.type_] else []

/-- The string value and the name, as far as the node owns them. -/
def Fields.releases (fields : Fields) : List Release :=
  (if !fields.type_.isReference && fields.valuestring.isSome then [.valuestring fields.type_] else []) ++
    fields.nameReleases

namespace Heap

/-! ## Lookup -/

/-- The loop of `get_array_item`: so many steps along the list, or to its end. -/
def getArrayItemLoop (heap : Heap) : Nat -> Pointer -> Except MemoryFault Pointer
  | 0, currentChild => .ok currentChild
  | index + 1, currentChild =>
      if currentChild.isNone then .ok currentChild
      else do
        let next ← heap.next currentChild
        heap.getArrayItemLoop index next

/-- `get_array_item`, NULL behind the end of the list. -/
def getArrayItem (heap : Heap) (array : Pointer) (index : Nat) : Except MemoryFault Pointer :=
  if array.isNone then .ok none
  else do
    let child ← heap.child array
    heap.getArrayItemLoop index child

/-- The loop of `get_object_item`.  The two string comparisons differ in what
they make of a NULL name: in case-sensitive mode it ends the search. -/
def getObjectItemLoop (heap : Heap) (name : Bytes) (caseSensitive : Bool) :
    Nat -> Pointer -> Except MemoryFault Pointer
  | 0, _ => .error .outOfFuel
  | fuel + 1, currentElement =>
      if currentElement.isNone then .ok none
      else do
        let fields ← heap.fields currentElement
        match fields.string with
        | none =>
            if caseSensitive then .ok none
            else do
              let next ← heap.next currentElement
              heap.getObjectItemLoop name caseSensitive fuel next
        | some string =>
            if compareBy (caseFold caseSensitive) string name = 0 then .ok currentElement
            else do
              let next ← heap.next currentElement
              heap.getObjectItemLoop name caseSensitive fuel next

/-- `get_object_item`: the first child of that name, NULL if there is none or one of
the pointers is NULL. -/
def getObjectItem (fuel : Nat) (heap : Heap) (object : Pointer) (name : Option Bytes)
    (caseSensitive : Bool) : Except MemoryFault Pointer :=
  match object, name with
  | some _, some name => do
      let child ← heap.child object
      heap.getObjectItemLoop name caseSensitive fuel child
  | _, _ => .ok none

/-- The loop of `cjson_get_array_size`, which counts in a `size_t`. -/
def getArraySizeLoop (heap : Heap) : Nat -> Pointer -> Nat -> Except MemoryFault Nat
  | 0, _, _ => .error .outOfFuel
  | fuel + 1, child, size =>
      if child.isNone then .ok size
      else do
        let next ← heap.next child
        heap.getArraySizeLoop fuel next (size + 1)

/-- `cjson_get_array_size`; the count is cut to a `c_int`, so that a very long list
has another size. -/
def cjsonGetArraySize (fuel : Nat) (heap : Heap) (array : Pointer) : Except MemoryFault Int :=
  if array.isNone then .ok 0
  else do
    let child ← heap.child array
    let size ← heap.getArraySizeLoop fuel child 0
    .ok (Int.bmod size (2 ^ 32))

/-- `cjson_get_array_item`: no item for a negative index. -/
def cjsonGetArrayItem (heap : Heap) (array : Pointer) (index : Int) : Except MemoryFault Pointer :=
  if index < 0 then .ok none else heap.getArrayItem array index.toNat

/-- `cjson_has_object_item`, which looks without regard to case. -/
def cjsonHasObjectItem (fuel : Nat) (heap : Heap) (object : Pointer) (string : Option Bytes) :
    Except MemoryFault Bool := do
  let item ← getObjectItem fuel heap object string false
  .ok item.isSome

/-- `cjson_get_string_value`: NULL for every item that is no string. -/
def cjsonGetStringValue (heap : Heap) (item : Pointer) : Except MemoryFault (Option Bytes) :=
  if item.isNone then .ok none
  else do
    let fields ← heap.fields item
    .ok (if fields.type_.base = .string then fields.valuestring else none)

/-- `cjson_get_number_value`: no number for every item that is none. -/
def cjsonGetNumberValue (heap : Heap) (item : Pointer) : Except MemoryFault Binary64 :=
  if item.isNone then .ok .nan
  else do
    let fields ← heap.fields item
    .ok (if fields.type_.base = .number then fields.valuedouble else .nan)

/-! ## Adding -/

/-- `suffix_object`: the two links between an item and the next. -/
def suffixObject (heap : Heap) (prev item : Pointer) : Except MemoryFault Heap := do
  let heap ← heap.setNext prev item
  heap.setPrev item prev

/-- `add_item_to_array`.  The last child is found by the `prev` of the first one;
where that is NULL nothing is added, and success reported. -/
def addItemToArray (heap : Heap) (array item : Pointer) : Except MemoryFault (Bool × Heap) :=
  if item.isNone ∨ array.isNone ∨ array = item then .ok (false, heap)
  else do
    let child ← heap.child array
    if child.isNone then do
      -- list is empty, start new one
      let heap ← heap.setChild array item
      let heap ← heap.setPrev item item
      let heap ← heap.setNext item none
      .ok (true, heap)
    else do
      let last ← heap.prev child
      if last.isSome then do
        -- append to the end
        let heap ← heap.suffixObject last item
        let child ← heap.child array
        let heap ← heap.setPrev child item
        .ok (true, heap)
      else .ok (true, heap)

/-- `add_item_to_object`.  The item's old name is freed after a copy has been made; a
constant name that is this old name is left dangling. -/
def addItemToObject (heap : Heap) (object : Pointer) (string : Option Name) (item : Pointer)
    (constantKey : Bool) : Except MemoryFault (Bool × Heap) :=
  match string with
  | none => .ok (false, heap)
  | some string =>
      if object.isNone ∨ item.isNone ∨ object = item then .ok (false, heap)
      else
        let copied := if constantKey then (some string.bytes, heap) else heap.strdup string.bytes
        match copied with
        | (none, heap) => .ok (false, heap)
        | (some newKey, heap) => do
            let fields ← heap.fields item
            if constantKey ∧ string.keyOf = item ∧ fields.ownsName then .error .dangling
            else do
              let heap := heap.record fields.nameReleases
              let heap ← heap.setFields item (fun fields => { fields with
                string := some newKey
                type_ := { fields.type_ with stringIsConst := constantKey } })
              heap.addItemToArray object item

/-- `cjson_insert_item_in_array`: in front of the child with that index, or at the end
where there is none. -/
def cjsonInsertItemInArray (heap : Heap) (array : Pointer) (which : Int) (newitem : Pointer) :
    Except MemoryFault (Bool × Heap) :=
  if which < 0 ∨ newitem.isNone then .ok (false, heap)
  else do
    let afterInserted ← heap.getArrayItem array which.toNat
    if afterInserted.isNone then heap.addItemToArray array newitem
    else do
      let child ← heap.child array
      let prev ← heap.prev afterInserted
      -- return false if after_inserted is a corrupted array item
      if afterInserted ≠ child ∧ prev.isNone then .ok (false, heap)
      else do
        let heap ← heap.setNext newitem afterInserted
        let heap ← heap.setPrev newitem prev
        let heap ← heap.setPrev afterInserted newitem
        if afterInserted = child then do
          let heap ← heap.setChild array newitem
          .ok (true, heap)
        else do
          let before ← heap.prev newitem
          let heap ← heap.setNext before newitem
          .ok (true, heap)

/-! ## Deleting and detaching -/

/-- `cjson_delete`: a node, what is below it, and its later siblings.  Children of a
reference are left alone, and strings that the node does not own. -/
def cjsonDelete : Nat -> Heap -> Pointer -> Except MemoryFault Heap
  | 0, _, _ => .error .outOfFuel
  | fuel + 1, heap, cur =>
      if cur.isNone then .ok heap
      else do
        let next ← heap.next cur
        let fields ← heap.fields cur
        let child ← heap.child cur
        let heap ← if !fields.type_.isReference && child.isSome then
            cjsonDelete fuel (heap.record [.child fields.type_]) child
          else .ok heap
        let heap := heap.record fields.releases
        let heap ← heap.release cur
        cjsonDelete fuel heap next

/-- `cjson_detach_item_via_pointer`.  That the item is a child of the parent is not
tested; only an item without `prev` that is not the first child is refused. -/
def cjsonDetachItemViaPointer (heap : Heap) (parent item : Pointer) :
    Except MemoryFault (Pointer × Heap) :=
  if parent.isNone ∨ item.isNone then .ok (none, heap)
  else do
    let child ← heap.child parent
    let prev ← heap.prev item
    if item ≠ child ∧ prev.isNone then .ok (none, heap)
    else do
      let next ← heap.next item
      -- not the first element
      let heap ← if item ≠ child then heap.setNext prev next else .ok heap
      -- not the last element
      let heap ← if next.isSome then heap.setPrev next prev else .ok heap
      let heap ←
        if item = child then heap.setChild parent next
        else if next.isNone then heap.setPrev child prev
        else .ok heap
      -- make sure the detached item doesn't point anywhere anymore
      let heap ← heap.setPrev item none
      let heap ← heap.setNext item none
      .ok (item, heap)

/-- `cjson_detach_item_from_array`: nothing for a negative index, or one behind the
end. -/
def cjsonDetachItemFromArray (heap : Heap) (array : Pointer) (which : Int) :
    Except MemoryFault (Pointer × Heap) :=
  if which < 0 then .ok (none, heap)
  else do
    let item ← heap.getArrayItem array which.toNat
    heap.cjsonDetachItemViaPointer array item

/-- `cjson_delete_item_from_array`: what has been detached is deleted, NULL too. -/
def cjsonDeleteItemFromArray (fuel : Nat) (heap : Heap) (array : Pointer) (which : Int) :
    Except MemoryFault Heap := do
  let (item, heap) ← heap.cjsonDetachItemFromArray array which
  cjsonDelete fuel (heap.recordChild array item) item

/-- `cjson_detach_item_from_object` and its case-sensitive variant: the first member
of the name. -/
def cjsonDetachItemFromObject (fuel : Nat) (heap : Heap) (object : Pointer) (string : Option Bytes)
    (caseSensitive : Bool) : Except MemoryFault (Pointer × Heap) := do
  let toDetach ← heap.getObjectItem fuel object string caseSensitive
  heap.cjsonDetachItemViaPointer object toDetach

/-- `cjson_delete_item_from_object` and its case-sensitive variant: the first member
of the name is detached and deleted. -/
def cjsonDeleteItemFromObject (fuel : Nat) (heap : Heap) (object : Pointer) (string : Option Bytes)
    (caseSensitive : Bool) : Except MemoryFault Heap := do
  let (item, heap) ← heap.cjsonDetachItemFromObject fuel object string caseSensitive
  cjsonDelete fuel (heap.recordChild object item) item

/-! ## Replacing -/

/-- `cjson_replace_item_via_pointer`: the replacement takes over the links of the
item, which is cut off from its siblings and deleted. -/
def cjsonReplaceItemViaPointer (fuel : Nat) (heap : Heap) (parent item replacement : Pointer) :
    Except MemoryFault (Bool × Heap) :=
  if parent.isNone then .ok (false, heap)
  else do
    let child ← heap.child parent
    if child.isNone ∨ replacement.isNone ∨ item.isNone then .ok (false, heap)
    else if replacement = item then .ok (true, heap)
    else do
      let next ← heap.next item
      let prev ← heap.prev item
      let heap ← heap.setNext replacement next
      let heap ← heap.setPrev replacement prev
      let heap ← if next.isSome then heap.setPrev next replacement else .ok heap
      let heap ←
        if child = item then do
          let last ← heap.prev child
          let heap ← if last = child then heap.setPrev replacement replacement else .ok heap
          heap.setChild parent replacement
        else do
          let heap ← if prev.isSome then heap.setNext prev replacement else .ok heap
          if next.isNone then heap.setPrev child replacement else .ok heap
      let heap ← heap.setNext item none
      let heap ← heap.setPrev item none
      let heap ← cjsonDelete fuel (heap.recordChild parent item) item
      .ok (true, heap)

/-- `cjson_replace_item_in_array`: the child with that index, if there is one. -/
def cjsonReplaceItemInArray (fuel : Nat) (heap : Heap) (array : Pointer) (which : Int)
    (newitem : Pointer) : Except MemoryFault (Bool × Heap) :=
  if which < 0 then .ok (false, heap)
  else do
    let item ← heap.getArrayItem array which.toNat
    heap.cjsonReplaceItemViaPointer fuel array item newitem

/-- `replace_item_in_object` from the copy of the name on.  When the copy is refused
the replacement is left without a name. -/
def renameAndReplace (fuel : Nat) (heap : Heap) (object : Pointer) (string : Bytes) (replacement : Pointer)
    (caseSensitive : Bool) : Except MemoryFault (Bool × Heap) :=
  match heap.strdup string with
  | (none, heap) => do
      let heap ← heap.setFields replacement (fun fields => { fields with string := none })
      .ok (false, heap)
  | (some newKey, heap) => do
      let heap ← heap.setFields replacement (fun fields => { fields with
        string := some newKey
        type_ := { fields.type_ with stringIsConst := false } })
      let item ← heap.getObjectItem fuel object (some string) caseSensitive
      heap.cjsonReplaceItemViaPointer fuel object item replacement

/-- `replace_item_in_object`.  The replacement's old name is freed before the name that is
given is copied and looked up, so that these must not be the same string. -/
def replaceItemInObject (fuel : Nat) (heap : Heap) (object : Pointer) (string : Option Name)
    (replacement : Pointer) (caseSensitive : Bool) : Except MemoryFault (Bool × Heap) :=
  match string with
  | none => .ok (false, heap)
  | some string =>
      if replacement.isNone then .ok (false, heap)
      else do
        -- replace the name in the replacement
        let fields ← heap.fields replacement
        if string.keyOf = replacement ∧ fields.ownsName then .error .dangling
        else renameAndReplace fuel (heap.record fields.nameReleases) object string.bytes replacement caseSensitive

/-! ## Creating -/

/-- The common part of `cjson_create_*`: a new node with these fields, or NULL. -/
def createNode (heap : Heap) (fields : Fields) : Except MemoryFault (Pointer × Heap) :=
  match heap.newItem with
  | (none, heap) => .ok (none, heap)
  | (some node, heap) => do
      let heap ← heap.setFields (some node) (fun _ => fields)
      .ok (some node, heap)

/-- `cjson_create_null`. -/
def cjsonCreateNull (heap : Heap) : Except MemoryFault (Pointer × Heap) :=
  heap.createNode { type_ := { base := .null } }

/-- `cjson_create_true`. -/
def cjsonCreateTrue (heap : Heap) : Except MemoryFault (Pointer × Heap) :=
  heap.createNode { type_ := { base := .true } }

/-- `cjson_create_false`. -/
def cjsonCreateFalse (heap : Heap) : Except MemoryFault (Pointer × Heap) :=
  heap.createNode { type_ := { base := .false } }

/-- `cjson_create_bool`. -/
def cjsonCreateBool (heap : Heap) (boolean : Bool) : Except MemoryFault (Pointer × Heap) :=
  heap.createNode { type_ := { base := if boolean then .true else .false } }

/-- `cjson_create_number`. -/
def cjsonCreateNumber (heap : Heap) (num : Binary64) : Except MemoryFault (Pointer × Heap) :=
  heap.createNode { type_ := { base := .number }, valuedouble := num, valueint := saturate num }

/-- `cjson_create_array`. -/
def cjsonCreateArray (heap : Heap) : Except MemoryFault (Pointer × Heap) :=
  heap.createNode { type_ := { base := .array } }

/-- `cjson_create_object`. -/
def cjsonCreateObject (heap : Heap) : Except MemoryFault (Pointer × Heap) :=
  heap.createNode { type_ := { base := .object } }

/-- `cjson_create_string_reference`. -/
def cjsonCreateStringReference (heap : Heap) (string : Option Bytes) :
    Except MemoryFault (Pointer × Heap) :=
  heap.createNode { type_ := { base := .string, isReference := true }, valuestring := string }

/-- `cjson_create_string` and `cjson_create_raw`: the node is deleted again when its
text cannot be copied. -/
def createText (fuel : Nat) (heap : Heap) (base : BaseType) (string : Option Bytes) :
    Except MemoryFault (Pointer × Heap) := do
  let (item, heap) ← heap.createNode { type_ := { base := base } }
  if item.isNone then .ok (none, heap)
  else
    let copied := match string with
      | none => (none, heap)
      | some string => heap.strdup string
    match copied with
    | (none, heap) => do
        let heap ← cjsonDelete fuel heap item
        .ok (none, heap)
    | (some copy, heap) => do
        let heap ← heap.setFields item (fun fields => { fields with valuestring := some copy })
        .ok (item, heap)

/-- `cjson_create_string`. -/
def cjsonCreateString (fuel : Nat) (heap : Heap) (string : Option Bytes) :
    Except MemoryFault (Pointer × Heap) :=
  createText fuel heap .string string

/-- `cjson_create_raw`. -/
def cjsonCreateRaw (fuel : Nat) (heap : Heap) (raw : Option Bytes) :
    Except MemoryFault (Pointer × Heap) :=
  createText fuel heap .raw raw

/-- A child that is put behind the children a node already has, of which `last`
is the last one: it becomes the first child, or `suffix_object` links it. -/
def attachChild (heap : Heap) (parent last newchild : Pointer) : Except MemoryFault Heap :=
  if last.isSome then heap.suffixObject last newchild else heap.setChild parent newchild

/-- The end of a loop that has attached children: the first one's `prev`. -/
def closeChildren (heap : Heap) (parent last : Pointer) : Except MemoryFault Heap := do
  let child ← heap.child parent
  if child.isSome then heap.setPrev child last else .ok heap

/-- The loop of `create_number_array`, over what creates the elements.  Each one is
linked behind the one before. -/
def createElements (fuel : Nat) (a : Pointer) :
    List (Heap -> Except MemoryFault (Pointer × Heap)) -> Heap -> Pointer ->
      Except MemoryFault (Option Pointer × Heap)
  | [], heap, p => .ok (some p, heap)
  | element :: rest, heap, p => do
      let (n, heap) ← element heap
      if n.isNone then do
        let heap ← cjsonDelete fuel heap a
        .ok (none, heap)
      else do
        let heap ← heap.attachChild a p n
        createElements fuel a rest heap n

/-- `create_number_array`: the first child gets the last one for its `prev`, and
everything is deleted when one element is refused. -/
def createNumberArray (fuel : Nat) (heap : Heap)
    (elements : List (Heap -> Except MemoryFault (Pointer × Heap))) :
    Except MemoryFault (Pointer × Heap) := do
  let (a, heap) ← heap.cjsonCreateArray
  if a.isNone then .ok (none, heap)
  else do
    match ← createElements fuel a elements heap none with
    | (none, heap) => .ok (none, heap)
    | (some n, heap) => do
        let heap ← heap.closeChildren a n
        .ok (a, heap)

/-- `cjson_create_int_array`, and the variants for `float` and `double`, whose
elements have been converted to `double`. -/
def cjsonCreateDoubleArray (fuel : Nat) (heap : Heap) (numbers : List Binary64) :
    Except MemoryFault (Pointer × Heap) :=
  createNumberArray fuel heap (numbers.map (fun number heap => heap.cjsonCreateNumber number))

/-- `cjson_create_int_array`. -/
def cjsonCreateIntArray (fuel : Nat) (heap : Heap) (numbers : List Int) :
    Except MemoryFault (Pointer × Heap) :=
  cjsonCreateDoubleArray fuel heap (numbers.map Binary64.ofInt)

/-- `cjson_create_string_array`. -/
def cjsonCreateStringArray (fuel : Nat) (heap : Heap) (strings : List (Option Bytes)) :
    Except MemoryFault (Pointer × Heap) :=
  createNumberArray fuel heap (strings.map (fun string heap => cjsonCreateString fuel heap string))

/-! ## Duplicating -/

/-- `CJSON_CIRCULAR_LIMIT`. -/
def circularLimit : Nat := 10000

/-- A string field of a copy: NULL stays NULL, and `none` says that there is no
memory for the copy. -/
def duplicateText (heap : Heap) : Option Bytes -> Option (Option Bytes) × Heap
  | none => (some none, heap)
  | some string => ((heap.strdup string).1.map some, (heap.strdup string).2)

/-- The member name of a copy: a constant name is shared. -/
def duplicateName (heap : Heap) (fields : Fields) : Option (Option Bytes) × Heap :=
  if fields.string.isSome && fields.type_.stringIsConst then (some fields.string, heap)
  else heap.duplicateText fields.string

/-- `duplicate_rec` up to the loop over the children: a node with copies of the
fields. -/
def duplicateNode (fuel : Nat) (heap : Heap) (item : Pointer) :
    Except MemoryFault (Pointer × Heap) :=
  match heap.newItem with
  | (none, heap) => .ok (none, heap)
  | (some newitem, heap) => do
      let fields ← heap.fields item
      let heap ← heap.setFields (some newitem) (fun _ => {
        type_ := { fields.type_ with isReference := false }
        valueint := fields.valueint
        valuedouble := fields.valuedouble })
      match heap.duplicateText fields.valuestring with
      | (none, heap) => do
          let heap ← cjsonDelete fuel heap (some newitem)
          .ok (none, heap)
      | (some valuestring, heap) => do
          let heap ← heap.setFields (some newitem) (fun fields => { fields with
            valuestring := valuestring })
          match heap.duplicateName fields with
          | (none, heap) => do
              let heap ← cjsonDelete fuel heap (some newitem)
              .ok (none, heap)
          | (some string, heap) => do
              let heap ← heap.setFields (some newitem) (fun fields => { fields with string := string })
              .ok (some newitem, heap)

mutual

/-- `duplicate_rec`: a copy without the reference flag, children and all if asked
for.  Deeper than the limit for circular lists, it gives up and deletes what it has. -/
def duplicateRec : Nat -> Heap -> Pointer -> Nat -> Bool -> Except MemoryFault (Pointer × Heap)
  | 0, _, _, _, _ => .error .outOfFuel
  | fuel + 1, heap, item, depth, recurse =>
      if item.isNone then .ok (none, heap)
      else do
        let (newitem, heap) ← duplicateNode (fuel + 1) heap item
        if newitem.isNone then .ok (none, heap)
        else if !recurse then .ok (newitem, heap)
        else do
          let child ← heap.child item
          match ← duplicateChildren fuel heap newitem child none depth with
          | (none, heap) => .ok (none, heap)
          | (some last, heap) => do
              let heap ← heap.closeChildren newitem last
              .ok (newitem, heap)

/-- The loop of `duplicate_rec`: from `child` on, behind the copy `next`.  On
failure the new node has been deleted. -/
def duplicateChildren : Nat -> Heap -> Pointer -> Pointer -> Pointer -> Nat ->
    Except MemoryFault (Option Pointer × Heap)
  | 0, _, _, _, _, _ => .error .outOfFuel
  | fuel + 1, heap, newitem, child, next, depth =>
      if child.isNone then .ok (some next, heap)
      else if circularLimit ≤ depth then do
        let heap ← cjsonDelete (fuel + 1) heap newitem
        .ok (none, heap)
      else do
        let (newchild, heap) ← duplicateRec fuel heap child (depth + 1) true
        if newchild.isNone then do
          let heap ← cjsonDelete (fuel + 1) heap newitem
          .ok (none, heap)
        else do
          let heap ← heap.attachChild newitem next newchild
          let child ← heap.next child
          duplicateChildren fuel heap newitem child newchild depth

end

/-- `cjson_duplicate`. -/
def cjsonDuplicate (fuel : Nat) (heap : Heap) (item : Pointer) (recurse : Bool) :
    Except MemoryFault (Pointer × Heap) :=
  duplicateRec fuel heap item 0 recurse

end Heap
end CJson
