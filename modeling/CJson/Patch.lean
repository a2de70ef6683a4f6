import CJson.Compare

/-!
# JSON Patch

`apply_patch` of `utils.rs` and what it is made of, on trees.  Memory is granted
whenever it is asked for, so that copying fails only on trees that are too deep.
A step has no result where the source reads through a NULL pointer or writes
through a `prev` field that names a node which is gone.
-/

namespace CJson

open CString

/-- `CJSON_CIRCULAR_LIMIT`. -/
def cjsonCircularLimit : Nat := 10000

/-- `cjson_strdup`, the copy. -/
def cjsonStrdup (string : Bytes) : Bytes := text string ++ [0]

/-- The fields of a copy: a reference becomes a node of its own, a constant name
is shared. -/
def Fields.duplicate (fields : Fields) : Fields where
  type_ := { fields.type_ with isReference := false }
  valueint := fields.valueint
  valuedouble := fields.valuedouble
  valuestring := fields.valuestring.map cjsonStrdup
  string := if fields.type_.stringIsConst then fields.string else fields.string.map cjsonStrdup

/-- The `prev` field of the first child of a list that is complete. -/
def HeadPrev.ofList (children : List Item) : HeadPrev :=
  if children.isEmpty then .null else .at (children.length - 1)

mutual

/-- `duplicate_rec`, with recursion.  A child at the depth limit makes it
fail. -/
def duplicateRec : Item -> Nat -> Option Item
  | .mk fields child _, depth => do
      let children ← duplicateChildren child depth
      some (.mk fields.duplicate children (.ofList children))

def duplicateChildren : List Item -> Nat -> Option (List Item)
  | [], _ => some []
  | child :: rest, depth =>
      if cjsonCircularLimit ≤ depth then none
      else do
        let newchild ← duplicateRec child (depth + 1)
        let others ← duplicateChildren rest depth
        some (newchild :: others)

end

/-- `cjson_duplicate(item, 1)`. -/
def cjsonDuplicate (item : Item) : Option Item := duplicateRec item 0

/-- `cjson_create_object`. -/
def cjsonCreateObject : Item := .mk { type_ := { base := .object } } [] .null

/-- `cjson_add_item_to_object`. -/
def cjsonAddItemToObject (object : Item) (string : Bytes) (item : Item) : Option Item :=
  addItemToArray object (item.withFields { item.fields with
    string := some (cjsonStrdup string)
    type_ := { item.fields.type_ with stringIsConst := false } })

/-- `cjson_add_item_to_object_cs`: the name is used as it is. -/
def cjsonAddItemToObjectCS (object : Item) (string : Bytes) (item : Item) : Option Item :=
  addItemToArray object (item.withFields { item.fields with
    string := some string
    type_ := { item.fields.type_ with stringIsConst := true } })

/-- `cjson_delete_item_from_object` and its case-sensitive variant. -/
def cjsonDeleteItemFromObject (object : Item) (string : Bytes) (caseSensitive : Bool) : Item :=
  match getObjectItem object string caseSensitive with
  | none => object
  | some position =>
      match cjsonDetachItemViaPointer object position with
      | none => object
      | some (_, remaining) => remaining

/-- The member that `get_object_item` finds. -/
def getMember (object : Item) (string : Bytes) (caseSensitive : Bool) : Option Item :=
  (getObjectItem object string caseSensitive).bind (fun position => object.child[position]?)

/-- `enum patch_operation`, with the value that stands for a text which is no
operation. -/
inductive PatchOperation where
  | invalid
  | add
  | remove
  | replace
  | move
  | copy
  | test
  deriving DecidableEq, Repr

/-- The texts that occur in a patch: member names and operations. -/
def opName : Bytes := [111, 112]
def pathName : Bytes := [112, 97, 116, 104]
def valueName : Bytes := [118, 97, 108, 117, 101]
def fromName : Bytes := [102, 114, 111, 109]
def addText : Bytes := [97, 100, 100]
def removeText : Bytes := [114, 101, 109, 111, 118, 101]
def replaceText : Bytes := [114, 101, 112, 108, 97, 99, 101]
def moveText : Bytes := [109, 111, 118, 101]
def copyText : Bytes := [99, 111, 112, 121]
def testText : Bytes := [116, 101, 115, 116]

/-- `decode_patch_operation`: the member `op` has to be a string, and its text has to
be one of the six operations, letter by letter.  There is no answer for a string
without a value, which the code would dereference. -/
def decodePatchOperation (patch : Item) (caseSensitive : Bool) : Option PatchOperation :=
  match getMember patch opName caseSensitive with
  | none => some .invalid
  | some operation =>
      if !operation.isString then some .invalid
      else
        match operation.fields.valuestring with
        | none => none
        | some valuestring =>
            some (if compareBy id valuestring addText = 0 then .add
              else if compareBy id valuestring removeText = 0 then .remove
              else if compareBy id valuestring replaceText = 0 then .replace
              else if compareBy id valuestring moveText = 0 then .move
              else if compareBy id valuestring copyText = 0 then .copy
              else if compareBy id valuestring testText = 0 then .test
              else .invalid)

/-- What `apply_patch` leaves: its status, the document and the patch. -/
structure Patched where
  status : Nat
  object : Item
  patch : Item

/-- The node that a removal at the root leaves. -/
def invalidItem : Item := .mk { type_ := { base := .invalid } } [] .null

/-- The `test` operation.  The value at the path is compared with the one in the
patch, and both of them come back as the comparison left them: it sorts the members of
objects.  A missing value on either side makes the test fail. -/
def testPatch (object patch : Item) (pointer : Option Bytes) (caseSensitive : Bool) :
    Option Patched :=
  let place := pointer.bind (fun pointer => getItemFromPointer object pointer caseSensitive)
  let position := getObjectItem patch valueName caseSensitive
  match place.bind object.at?, position.bind (fun position => patch.child[position]?) with
  | some a, some b => do
      let compared ← compareJson (a.height + 1) a b caseSensitive
      let object ← object.modify (fun _ => some compared.a) (place.getD [])
      let children := patch.child.set (position.getD 0) compared.b
      some ⟨if compared.equal then 0 else 1, object, patch.withChildren children patch.headPrev⟩
  | _, _ => some ⟨1, object, patch⟩

/-- Put a value where the last token of a path says: the status and the document.  The
tokens in front lead to the parent; an array takes an index or `-`, an object takes a
name and gives up the member that had it.  On a failure the document is as it was. -/
def addToPath (object : Item) (path : Bytes) (value : Item) (caseSensitive : Bool) :
    Option (Nat × Item) :=
  -- split pointer in parent and child
  match splitPointer (cjsonUtilsStrdup path) with
  | none => some (9, object)
  | some (parentPointer, childPointer) =>
      let childPointer := decodePointerInplace childPointer
      match getItemFromPointer object parentPointer caseSensitive with
      | none => some (9, object)
      | some parentPath =>
          match object.at? parentPath with
          | none => some (9, object)
          | some parent =>
              if parent.isArray then
                if compareBy id childPointer [45] = 0 then do
                  let changed ← addItemToArray parent value
                  let object ← object.modify (fun _ => some changed) parentPath
                  some (0, object)
                else
                  match decodeArrayIndexFromPointer childPointer with
                  | none => some (11, object)
                  | some index => do
                      let (inserted, changed) ← insertItemInArray parent index value
                      let object ← object.modify (fun _ => some changed) parentPath
                      some (if inserted then 0 else 10, object)
              else if parent.isObject then do
                let rest := cjsonDeleteItemFromObject parent childPointer caseSensitive
                let changed ← cjsonAddItemToObject rest childPointer value
                let object ← object.modify (fun _ => some changed) parentPath
                some (0, object)
              else
                -- Couldn't find object to add to.
                some (9, object)

/-- The rest of `apply_patch` for an `add` or a `replace`, from the lookup of the
value on. -/
def addValue (object patch : Item) (path : Bytes) (caseSensitive : Bool) : Option Patched :=
  match getMember patch valueName caseSensitive with
  | none =>
      -- missing "value" for add/replace.
      some ⟨7, object, patch⟩
  | some value =>
      match cjsonDuplicate value with
      | none =>
          -- out of memory for add/replace.
          some ⟨8, object, patch⟩
      | some value => do
          let (status, object) ← addToPath object path value caseSensitive
          some ⟨status, object, patch⟩

/-- The `move` and `copy` operations.  A `move` takes the value out of the document
before the path is looked up, and if the path leads nowhere the value is lost; a
`copy` leaves it and adds a duplicate. -/
def transferValue (object patch : Item) (operation : PatchOperation) (path : Bytes)
    (caseSensitive : Bool) : Option Patched :=
  match getMember patch fromName caseSensitive with
  | none => some ⟨4, object, patch⟩
  | some source =>
      if !source.isString then
        -- missing "from" for copy/move.
        some ⟨4, object, patch⟩
      else if operation = .move then
        match source.fields.valuestring with
        | none => none
        | some pointer =>
            match detachPath object pointer caseSensitive with
            | none => some ⟨5, object, patch⟩
            | some (_, value, object) => do
                let (status, object) ← addToPath object path value caseSensitive
                some ⟨status, object, patch⟩
      else
        let place := source.fields.valuestring.bind
          (fun pointer => getItemFromPointer object pointer caseSensitive)
        match place.bind object.at? with
        | none => some ⟨5, object, patch⟩
        | some value =>
            match cjsonDuplicate value with
            | none =>
                -- out of memory for copy/move.
                some ⟨6, object, patch⟩
            | some value => do
                let (status, object) ← addToPath object path value caseSensitive
                some ⟨status, object, patch⟩

/-- The special case of `apply_patch` for the root: a removal, or a replacement
by a copy of the value, whose name is dropped. -/
def overwriteRoot (object patch : Item) (operation : PatchOperation) (caseSensitive : Bool) :
    Patched :=
  if operation = .remove then ⟨0, invalidItem, patch⟩
  else
    match getMember patch valueName caseSensitive with
    | none => ⟨7, object, patch⟩
    | some value =>
        match cjsonDuplicate value with
        | none => ⟨8, object, patch⟩
        | some value => ⟨0, value.withFields { value.fields with string := none }, patch⟩

/-- The operations with a path that is not the root's.  A `remove` and a `replace`
begin by taking the old value out of the document; a `replace` whose new value cannot
be added has lost the old one by then. -/
def applyAtPath (object patch : Item) (operation : PatchOperation) (path : Bytes)
    (caseSensitive : Bool) : Option Patched :=
  match operation with
  | .remove =>
      match detachPath object path caseSensitive with
      | none => some ⟨13, object, patch⟩
      | some (_, _, object) => some ⟨0, object, patch⟩
  | .replace =>
      -- Get rid of old.
      match detachPath object path caseSensitive with
      | none => some ⟨13, object, patch⟩
      | some (_, _, object) => addValue object patch path caseSensitive
  | .add => addValue object patch path caseSensitive
  | _ => transferValue object patch operation path caseSensitive

/-- `apply_patch`.  A patch needs a path that is a string and an operation that is
known, in this order.  A `test` is told apart before the root is, and the root is told
apart before any other path, except for a `move` or a `copy`. -/
def applyPatch (object patch : Item) (caseSensitive : Bool) : Option Patched :=
  match getMember patch pathName caseSensitive with
  | none => some ⟨2, object, patch⟩
  | some path =>
      if !path.isString then
        -- malformed patch.
        some ⟨2, object, patch⟩
      else do
        match ← decodePatchOperation patch caseSensitive with
        | .invalid => some ⟨3, object, patch⟩
        | .test => testPatch object patch path.fields.valuestring caseSensitive
        | operation => do
            let pointer ← path.fields.valuestring
            if first pointer = 0 ∧ operation ≠ .move ∧ operation ≠ .copy then
              some (overwriteRoot object patch operation caseSensitive)
            else applyAtPath object patch operation pointer caseSensitive

/-- The loop of `cJSONUtils_ApplyPatches`, over the patches that are left.  It ends
with the first one that fails; what the earlier ones did to the document stays, and
the later ones come back untouched. -/
def applyPatchesLoop (object : Item) (caseSensitive : Bool) :
    List Item -> Option (Nat × Item × List Item)
  | [] => some (0, object, [])
  | currentPatch :: rest => do
      let patched ← applyPatch object currentPatch caseSensitive
      if patched.status ≠ 0 then some (patched.status, patched.object, patched.patch :: rest)
      else do
        let (status, object, others) ← applyPatchesLoop patched.object caseSensitive rest
        some (status, object, patched.patch :: others)

/-- `cJSONUtils_ApplyPatches` and its case-sensitive variant.  Patches that are no
array fail before the document is looked at; otherwise the patches come back too,
since a `test` may sort their values. -/
def cjsonUtilsApplyPatches (object patches : Item) (caseSensitive : Bool) :
    Option (Nat × Item × Item) :=
  if !patches.isArray then
    -- malformed patches.
    some (1, object, patches)
  else do
    let (status, object, children) ← applyPatchesLoop object caseSensitive patches.child
    some (status, object, patches.withChildren children patches.headPrev)

end CJson
