import CJson.Escape
import CJson.Patch

/-!
# Patching the member of a name

A patch that adds, removes or replaces an object member names it by the last
token of its path.  `patchMember` says what such a patch is for: it looks the
name itself up.  The code gets there when the decoded token is the name and when
the lookup of `detach_path`, which ignores case, finds the same member.
-/

namespace CJson

open CString

/-- Remove the member of that name from the object that a path leads to. -/
def removeMember (object : Item) (parentPath : Item.Path) (name : Bytes) (caseSensitive : Bool) :
    Option Item :=
  object.modify (fun parent =>
    (getObjectItem parent name caseSensitive).bind fun position =>
      (cjsonDetachItemViaPointer parent position).map Prod.snd) parentPath

/-- Give the object that a path leads to a member of that name, with a copy of
the value in the patch. -/
def setMember (object patch : Item) (parentPath : Item.Path) (name : Bytes) (caseSensitive : Bool) :
    Option Patched :=
  match getMember patch valueName caseSensitive with
  | none => some ⟨7, object, patch⟩
  | some value =>
      match cjsonDuplicate value with
      | none => some ⟨8, object, patch⟩
      | some value => do
          let object ← object.modify (fun parent =>
            cjsonAddItemToObject (cjsonDeleteItemFromObject parent name caseSensitive) name value)
            parentPath
          some ⟨0, object, patch⟩

/-- What adding, removing and replacing the member of a name means.  Only adding works
without a member of that name; replacing is removing and adding, so the member ends up
at the end of its object. -/
def patchMember (object patch : Item) (operation : PatchOperation) (parentPath : Item.Path)
    (name : Bytes) (caseSensitive : Bool) : Option Patched :=
  if operation = .add then setMember object patch parentPath name caseSensitive
  else
    match removeMember object parentPath name caseSensitive with
    | none => some ⟨13, object, patch⟩
    | some object =>
        if operation = .remove then some ⟨0, object, patch⟩
        else setMember object patch parentPath name caseSensitive

/-- A patch acts on the member of that name: that member is the one it takes out, if
it takes one out, and its outcome is the meaning of the operation.  `patchMember` says
what the operation means for a member; it is the specification here and looks for the
name itself. -/
structure ActsOnMember (object patch : Item) (operation : PatchOperation) (pointer : Bytes)
    (parentPath : Item.Path) (parent : Item) (name : Bytes) (caseSensitive : Bool) : Prop where
  taken : operation ≠ .add ->
    (detachPath object pointer caseSensitive).map (·.1) =
      (getObjectItem parent name caseSensitive).map (fun position => parentPath ++ [position])
  outcome : applyPatch object patch caseSensitive =
    patchMember object patch operation parentPath name caseSensitive

/-! ## Names that are read up to their terminator -/

theorem folded_congr (fold : UInt8 -> UInt8) {left right : Bytes} (same : text left = text right) :
    folded fold left = folded fold right := by
  rw [← folded_text fold left, same, folded_text]

theorem getObjectItem_congr {object : Item} {left right : Bytes} (same : text left = text right)
    (caseSensitive : Bool) :
    getObjectItem object left caseSensitive = getObjectItem object right caseSensitive := by
  have exact : ∀ string, (compareBy id string left == 0) = (compareBy id string right == 0) := by
    intro string
    apply Bool.eq_iff_iff.mpr
    rw [beq_iff_eq, beq_iff_eq, (compareBy_spec keepsTerminator_id string left).2,
      (compareBy_spec keepsTerminator_id string right).2, folded_congr id same]
  have loose : ∀ string, (caseInsensitiveStrcmp (some left) string == 0) =
      (caseInsensitiveStrcmp (some right) string == 0) := by
    intro string
    cases string with
    | none => rfl
    | some string =>
        apply Bool.eq_iff_iff.mpr
        rw [beq_iff_eq, beq_iff_eq, caseInsensitiveStrcmp, caseInsensitiveStrcmp,
          (compareBy_spec keepsTerminator_toAsciiLowercase left string).2,
          (compareBy_spec keepsTerminator_toAsciiLowercase right string).2,
          folded_congr toAsciiLowercase same]
  simp only [getObjectItem, exact, loose]

/-- A member that is found is a child. -/
theorem getObjectItem_child {object : Item} {name : Bytes} {caseSensitive : Bool} {position : Nat}
    (found : getObjectItem object name caseSensitive = some position) :
    ∃ member, object.child[position]? = some member := by
  rw [getObjectItem] at found
  have named := (Option.filter_eq_some_iff.mp found).2
  cases child : object.child[position]? with
  | none => simp [child] at named
  | some member => exact ⟨member, rfl⟩

theorem cjsonDeleteItemFromObject_congr {object : Item} {left right : Bytes}
    (same : text left = text right) (caseSensitive : Bool) :
    cjsonDeleteItemFromObject object left caseSensitive =
      cjsonDeleteItemFromObject object right caseSensitive := by
  rw [cjsonDeleteItemFromObject, getObjectItem_congr same, cjsonDeleteItemFromObject]

theorem cjsonAddItemToObject_congr {object item : Item} {left right : Bytes}
    (same : text left = text right) :
    cjsonAddItemToObject object left item = cjsonAddItemToObject object right item := by
  rw [cjsonAddItemToObject, cjsonAddItemToObject, cjsonStrdup, cjsonStrdup, same]

/-! ## Changing a node deep in a tree -/

/-- The node at the end of the path, after it has been exchanged. -/
theorem Item.modify_at {change : Item -> Option Item} {item changed : Item} {path : Item.Path}
    (modified : item.modify change path = some changed) :
    ∃ node new, item.at? path = some node ∧ change node = some new ∧ changed.at? path = some new := by
  induction path generalizing item changed with
  | nil => exact ⟨item, changed, rfl, modified, rfl⟩
  | cons position path ih =>
      cases child : item.child[position]? with
      | none => simp [Item.modify, child] at modified
      | some next =>
          simp only [Item.modify, child] at modified
          rcases Option.map_eq_some_iff.mp modified with ⟨below, belowModified, rfl⟩
          rcases ih belowModified with ⟨node, new, found, changes, there⟩
          refine ⟨node, new, ?_, changes, ?_⟩
          · rw [Item.at?, child]
            exact found
          · have inside := (List.getElem?_eq_some_iff.mp child).1
            rw [Item.at?, Item.withChildren_child, List.getElem?_set_self inside]
            exact there

/-- A change depends on the node at the end of the path alone. -/
theorem Item.modify_const {change : Item -> Option Item} {item node : Item} {path : Item.Path}
    (found : item.at? path = some node) :
    item.modify change path = (change node).bind fun new => item.modify (fun _ => some new) path := by
  induction path generalizing item with
  | nil =>
      cases found
      rw [Item.modify]
      cases changed : change node with
      | none => rfl
      | some new => rfl
  | cons position path ih =>
      cases child : item.child[position]? with
      | none => simp [Item.at?, child] at found
      | some next =>
          simp only [Item.at?, child] at found
          simp only [Item.modify, child, ih found]
          cases change node <;> rfl

/-- A change that keeps the fields of the node it is made at keeps those of the
root. -/
theorem Item.modify_fields {change : Item -> Option Item} {item changed : Item} {path : Item.Path}
    (keeps : ∀ node new, change node = some new -> new.fields = node.fields)
    (modified : item.modify change path = some changed) : changed.fields = item.fields := by
  cases path with
  | nil => exact keeps item changed modified
  | cons position path =>
      cases child : item.child[position]? with
      | none => simp [Item.modify, child] at modified
      | some next =>
          simp only [Item.modify, child] at modified
          rcases Option.map_eq_some_iff.mp modified with ⟨below, _, rfl⟩
          rfl

/-- A turn of the walker does not see more of a child than its fields, so it goes the
same way when a child below has been changed. -/
theorem selectChild_set {caseSensitive : Bool} {item next new : Item} {position : Nat}
    (child : item.child[position]? = some next) (same : new.fields = next.fields) (pointer : Bytes) :
    selectChild caseSensitive (item.withChildren (item.child.set position new) item.headPrev) pointer =
      selectChild caseSensitive item pointer := by
  have names : (item.child.set position new).map Item.string = item.child.map Item.string := by
    apply List.ext_getElem?
    intro other
    rw [List.map_set]
    by_cases here : position = other
    · subst here
      have inside := (List.getElem?_eq_some_iff.mp child).1
      rw [List.getElem?_set_self (by rwa [List.length_map]), List.getElem?_map, child, Option.map_some,
        Item.string, same]
      rfl
    · rw [List.getElem?_set_ne here]
  have search : ∀ hit : Option Bytes -> Bool,
      (item.child.set position new).findIdx? (fun member => hit member.string) =
        item.child.findIdx? (fun member => hit member.string) := by
    intro hit
    have mapped : ∀ items : List Item, items.findIdx? (fun member => hit member.string) =
        (items.map Item.string).findIdx? hit := fun items => List.findIdx?_map.symm
    rw [mapped, mapped, names]
  simp only [selectChild, getArrayItem, Item.isArray, Item.isObject, Item.base,
    Item.withChildren_fields, Item.withChildren_child, List.length_set,
    search (fun string => comparePointers string pointer caseSensitive)]
  rfl

/-- The walker finds a node again after the node has been changed, as long as the
change keeps its fields: the names and types along the way are the same. -/
theorem followPointer_modify {caseSensitive : Bool} {change : Item -> Option Item} {pointer : Bytes}
    {item changed : Item} {path : Item.Path}
    (keeps : ∀ node new, change node = some new -> new.fields = node.fields)
    (walked : followPointer caseSensitive pointer item = some path)
    (modified : item.modify change path = some changed) :
    followPointer caseSensitive pointer changed = some path := by
  induction pointer generalizing item changed path with
  | nil =>
      cases walked
      rfl
  | cons byte rest ih =>
      rw [followPointer] at walked ⊢
      by_cases zero : byte = 0
      · rw [if_pos zero] at walked ⊢
        exact walked
      rw [if_neg zero] at walked ⊢
      by_cases separator : byte = slash
      · rw [if_pos separator] at walked ⊢
        cases selected : selectChild caseSensitive item rest with
        | none => simp [selected] at walked
        | some position =>
            cases child : item.child[position]? with
            | none => simp [selected, child] at walked
            | some next =>
                simp only [selected, child] at walked
                rcases Option.map_eq_some_iff.mp walked with ⟨below, walkedBelow, rfl⟩
                simp only [Item.modify, child] at modified
                rcases Option.map_eq_some_iff.mp modified with ⟨belowChanged, belowModified, rfl⟩
                have inside := (List.getElem?_eq_some_iff.mp child).1
                rw [selectChild_set child (Item.modify_fields keeps belowModified), selected]
                simp only [Item.withChildren_child, List.getElem?_set_self inside,
                  ih walkedBelow belowModified, Option.map_some]
      · rw [if_neg separator] at walked ⊢
        exact ih walked modified

/-! ## Paths that end in the token of a name -/

section Named

variable {object parent : Item} {pointer front name : Bytes} {parentPath : Item.Path}
  {caseSensitive : Bool}

/-- The last token of the path, split off and decoded, is the name. -/
private theorem lastToken (free : (0 : UInt8) ∉ name) (keeps : KeepsPlaces name)
    (ends : text pointer = front ++ slash :: escape name) :
    splitPointer (cjsonUtilsStrdup pointer) = some (front, escape name) ∧
      text (decodePointerInplace (escape name)) = text name := by
  have frontFree : (0 : UInt8) ∉ front := fun member =>
    zero_not_mem_text pointer (ends ▸ List.mem_append_left _ member)
  have undone := (@decode_escape_iff name [] free rfl).mpr keeps
  rw [List.append_nil] at undone
  rw [cjsonUtilsStrdup, ends, splitPointer_append front frontFree (slash_not_mem_escape name),
    undone, text_eq_self free]
  exact ⟨rfl, rfl⟩

private theorem isArray_eq_false (isObject : parent.isObject = true) : parent.isArray = false := by
  cases array : parent.isArray with
  | false => rfl
  | true => exact absurd isObject (not_isObject_of_isArray array)

/-- The member that `detach_path` takes: that of the name itself, if the decoder gives
the name back, and found without regard to case. -/
theorem detachPath_member (free : (0 : UInt8) ∉ name) (keeps : KeepsPlaces name)
    (ends : text pointer = front ++ slash :: escape name)
    (walked : getItemFromPointer object front caseSensitive = some parentPath)
    (found : object.at? parentPath = some parent) (isObject : parent.isObject = true) :
    detachPath object pointer caseSensitive =
      (getObjectItem parent name false).bind fun position =>
        (cjsonDetachItemViaPointer parent position).bind fun detached =>
          (object.modify (fun _ => some detached.2) parentPath).map fun object =>
            (parentPath ++ [position], detached.1, object) := by
  have token := lastToken free keeps ends
  simp only [detachPath, token.1, walked, found, isArray_eq_false isObject, isObject, if_true,
    Bool.false_eq_true, if_false, cjsonDetachItemFromObject, cjsonGetObjectItem,
    getObjectItem_congr token.2]
  cases getObjectItem parent name false with
  | none => rfl
  | some position =>
      cases detached : cjsonDetachItemViaPointer parent position with
      | none => simp [detached]
      | some both => simp [detached]

/-- The value is put under the name itself, if the decoder gives the name back.  The
member that was there is deleted first, with regard to case if the caller asks for it. -/
theorem addToPath_member (free : (0 : UInt8) ∉ name) (keeps : KeepsPlaces name)
    (ends : text pointer = front ++ slash :: escape name)
    (walked : getItemFromPointer object front caseSensitive = some parentPath)
    (found : object.at? parentPath = some parent) (isObject : parent.isObject = true)
    (value : Item) :
    addToPath object pointer value caseSensitive =
      (object.modify (fun parent =>
        cjsonAddItemToObject (cjsonDeleteItemFromObject parent name caseSensitive) name value)
        parentPath).map fun object => (0, object) := by
  have token := lastToken free keeps ends
  simp only [addToPath, token.1, walked, found, isArray_eq_false isObject, isObject, if_true,
    Bool.false_eq_true, if_false, cjsonDeleteItemFromObject_congr token.2,
    cjsonAddItemToObject_congr token.2]
  rw [Item.modify_const found]
  cases cjsonAddItemToObject (cjsonDeleteItemFromObject parent name caseSensitive) name value with
  | none => rfl
  | some changed =>
      simp only [Option.bind_eq_bind, Option.bind_some]
      cases object.modify (fun _ => some changed) parentPath <;> rfl

theorem addValue_eq_setMember (free : (0 : UInt8) ∉ name) (keeps : KeepsPlaces name)
    (ends : text pointer = front ++ slash :: escape name)
    (walked : getItemFromPointer object front caseSensitive = some parentPath)
    (found : object.at? parentPath = some parent) (isObject : parent.isObject = true)
    (patch : Item) :
    addValue object patch pointer caseSensitive =
      setMember object patch parentPath name caseSensitive := by
  rw [addValue, setMember]
  cases getMember patch valueName caseSensitive with
  | none => rfl
  | some value =>
      cases copied : cjsonDuplicate value with
      | none => simp only [copied]
      | some value =>
          simp only [copied, addToPath_member free keeps ends walked found isObject]
          cases object.modify _ parentPath <;> rfl

theorem cjsonDetachItemViaPointer_fields {parent item remaining : Item} {position : Nat}
    (detached : cjsonDetachItemViaPointer parent position = some (item, remaining)) :
    remaining.fields = parent.fields := by
  rw [cjsonDetachItemViaPointer] at detached
  split at detached
  · cases detached
  · cases detached
    rfl

/-- The node that a walk along `front` reaches is reached again after it has been
changed. -/
theorem walked_again {change : Item -> Option Item} {changed : Item}
    (keeps : ∀ node new, change node = some new -> new.fields = node.fields)
    (walked : getItemFromPointer object front caseSensitive = some parentPath)
    (modified : object.modify change parentPath = some changed) :
    getItemFromPointer changed front caseSensitive = some parentPath := by
  rw [getItemFromPointer] at walked ⊢
  split at walked
  · rename_i leading
    rw [if_pos leading]
    exact followPointer_modify keeps walked modified
  · rename_i leading
    rw [if_neg leading]
    exact walked

end Named

/-- For a name that keeps its places, and a member that both lookups agree on, the
three operations act on the member of that name. -/
theorem applyPatch_member {object patch path parent : Item} {operation : PatchOperation}
    {pointer front name : Bytes} {parentPath : Item.Path} {caseSensitive : Bool}
    (free : (0 : UInt8) ∉ name) (keeps : KeepsPlaces name)
    (operationFound : decodePatchOperation patch caseSensitive = some operation)
    (kind : operation = .add ∨ operation = .remove ∨ operation = .replace)
    (pathFound : getMember patch pathName caseSensitive = some path)
    (isString : path.isString = true) (stored : path.fields.valuestring = some pointer)
    (ends : text pointer = front ++ slash :: escape name)
    (walked : getItemFromPointer object front caseSensitive = some parentPath)
    (found : object.at? parentPath = some parent) (isObject : parent.isObject = true)
    (agree : operation ≠ .add ->
      getObjectItem parent name caseSensitive = getObjectItem parent name false) :
    applyPatch object patch caseSensitive =
      patchMember object patch operation parentPath name caseSensitive := by
  have nonempty : first pointer ≠ 0 := by
    intro empty
    have noText : text pointer = [] := by
      cases pointer with
      | nil => rfl
      | cons byte rest =>
          rw [text_cons]
          exact if_pos empty
    rw [ends] at noText
    exact List.append_ne_nil_of_right_ne_nil _ (List.cons_ne_nil _ _) noText
  have atPath : applyPatch object patch caseSensitive =
      applyAtPath object patch operation pointer caseSensitive := by
    simp only [applyPatch, pathFound, isString, operationFound, stored, Bool.not_true,
      Bool.false_eq_true, if_false]
    rcases kind with rfl | rfl | rfl <;> simp [nonempty]
  rw [atPath]
  have removal : operation ≠ .add -> (detachPath object pointer caseSensitive).map (·.2.2) =
      removeMember object parentPath name caseSensitive := by
    intro detaches
    rw [detachPath_member free keeps ends walked found isObject, removeMember,
      Item.modify_const found, ← agree detaches]
    cases getObjectItem parent name caseSensitive with
    | none => rfl
    | some position =>
        simp only [Option.bind_some]
        cases cjsonDetachItemViaPointer parent position with
        | none => rfl
        | some detached =>
            simp only [Option.bind_some, Option.map_some]
            cases object.modify (fun _ => some detached.2) parentPath <;> rfl
  rcases kind with rfl | rfl | rfl
  · rw [applyAtPath, patchMember, if_pos rfl, addValue_eq_setMember free keeps ends walked found isObject]
  · rw [applyAtPath, patchMember, if_neg (by decide), ← removal (by decide)]
    cases detachPath object pointer caseSensitive with
    | none => rfl
    | some detached => rfl
  · rw [applyAtPath, patchMember, if_neg (by decide), ← removal (by decide)]
    cases detached : detachPath object pointer caseSensitive with
    | none => rfl
    | some parts =>
        have removed := (removal (by decide)).symm
        rw [detached] at removed
        have keepsFields : ∀ node new, ((getObjectItem node name caseSensitive).bind fun position =>
            (cjsonDetachItemViaPointer node position).map Prod.snd) = some new ->
              new.fields = node.fields := by
          intro node new changed
          rcases Option.bind_eq_some_iff.mp changed with ⟨position, _, taken⟩
          rcases Option.map_eq_some_iff.mp taken with ⟨both, isDetached, rfl⟩
          exact cjsonDetachItemViaPointer_fields isDetached
        rcases Item.modify_at removed with ⟨node, new, nodeFound, changes, newFound⟩
        rw [found] at nodeFound
        cases nodeFound
        have newObject : new.isObject = true := by
          rw [Item.isObject, Item.base, keepsFields parent new changes]
          exact isObject
        simp only [Option.map_some]
        rw [if_neg (by decide)]
        exact addValue_eq_setMember free keeps ends (walked_again keepsFields walked removed) newFound
          newObject patch

/-- Encoding a name and decoding the token in place gives the name back, and the
patches whose path ends in that token act on the member of that name, exactly
when the name keeps its places and, for a removal or replacement in
case-sensitive mode, the lookup that ignores case finds the same member. -/
theorem escaped_name_iff {object patch path parent : Item} {operation : PatchOperation}
    {pointer front block name : Bytes} {parentPath : Item.Path} {caseSensitive : Bool}
    (free : (0 : UInt8) ∉ name) (room : pointerEncodedLength name < block.length)
    (operationFound : decodePatchOperation patch caseSensitive = some operation)
    (kind : operation = .add ∨ operation = .remove ∨ operation = .replace)
    (pathFound : getMember patch pathName caseSensitive = some path)
    (isString : path.isString = true) (stored : path.fields.valuestring = some pointer)
    (ends : text pointer = front ++ slash :: text (encodeStringAsPointer block 0 name))
    (walked : getItemFromPointer object front caseSensitive = some parentPath)
    (found : object.at? parentPath = some parent) (isObject : parent.isObject = true) :
    (text (decodePointerInplace (encodeStringAsPointer block 0 name)) = name ∧
      ActsOnMember object patch operation pointer parentPath parent name caseSensitive) ↔
    KeepsPlaces name ∧ (operation ≠ .add ->
      getObjectItem parent name caseSensitive = getObjectItem parent name false) := by
  have encoded : text (encodeStringAsPointer block 0 name) = escape name := by
    obtain ⟨rest, written⟩ := encodeStringAsPointer_start free room
    rw [written, text_append_zero (zero_not_mem_escape free)]
  rw [encoded] at ends
  rw [decode_encode_iff free room]
  apply and_congr_right
  intro keeps
  have taken : (detachPath object pointer caseSensitive).map (·.1) =
      (getObjectItem parent name false).map (fun position => parentPath ++ [position]) := by
    rw [detachPath_member free keeps ends walked found isObject]
    cases lookup : getObjectItem parent name false with
    | none => rfl
    | some position =>
        obtain ⟨member, child⟩ := getObjectItem_child lookup
        obtain ⟨remaining, detached⟩ := cjsonDetachItemViaPointer_eq_some child
        obtain ⟨changed, modified⟩ := Option.isSome_iff_exists.mp
          (@Item.modify_isSome (fun _ => some remaining) _ _ _ found rfl)
        simp only [Option.bind_some, detached, modified, Option.map_some]
  constructor
  · intro acts detaches
    have same := (acts.taken detaches).symm.trans taken
    exact Option.map_injective (fun _ _ equal => by simpa using equal) same
  · intro agree
    refine ⟨fun detaches => ?_, ?_⟩
    · rw [taken, agree detaches]
    · exact applyPatch_member free keeps operationFound kind pathFound isString stored ends walked
        found isObject agree

/-- An object with one member, which is null. -/
def oneMember (name : Bytes) : Item :=
  .mk { type_ := { base := .object } } [.mk { type_ := { base := .null }, string := some name } [] .null]
    (.at 0)

/-- The patch `{"op": "remove", "path": path}`. -/
def removal (path : Bytes) : Item :=
  .mk { type_ := { base := .object } }
    [.mk { type_ := { base := .string }, valuestring := some removeText, string := some opName } [] .null,
      .mk { type_ := { base := .string }, valuestring := some path, string := some pathName } [] .null]
    (.at 1)

/-- The pointer `/a` into `{"a": null}`. -/
theorem escaped_name_iff_plain :
    (text (decodePointerInplace (encodeStringAsPointer [0, 0] 0 [97])) = [97] ∧
      ActsOnMember (oneMember [97]) (removal [slash, 97]) .remove [slash, 97] [] (oneMember [97]) [97]
        true) ↔
    KeepsPlaces [97] ∧ (PatchOperation.remove ≠ .add ->
      getObjectItem (oneMember [97]) [97] true = getObjectItem (oneMember [97]) [97] false) :=
  @escaped_name_iff _ _ ((removal [slash, 97]).child.getD 1 invalidItem) _ _ _ [] _ _ _ _
    (by decide) (by decide) rfl (Or.inr (Or.inl rfl)) rfl rfl rfl rfl rfl rfl rfl

/-- The name `m~n` has the token `m~0n`, which is decoded to `m~0`.  So a patch
that removes `/m~0n` from `{"m~n": null}` does not find its member. -/
theorem decode_misplaces_bytes :
    text (decodePointerInplace (encodeStringAsPointer [0, 0, 0, 0, 0] 0 [109, tilde, 110])) ≠
        [109, tilde, 110] ∧
      getObjectItem (oneMember [109, tilde, 110]) [109, tilde, 110] true = some 0 ∧
      (applyPatch (oneMember [109, tilde, 110]) (removal [slash, 109, tilde, 48, 110]) true).map
        Patched.status = some 13 := by
  exact ⟨by decide, rfl, rfl⟩

end CJson
