import CJson.Item

/-!
# Child-list surgery on items

`manip.rs` and `utils.rs` splice nodes into and out of a child list by
rewriting `next` and `prev` fields.  On an `Item` the `next` chain is the list
of children, and the only `prev` field with a life of its own is that of the
first child.  Each function below says what the pointer code leaves behind for
any value of that field, a damaged one included: appending goes through it,
wherever it points.
-/

namespace CJson

namespace HeadPrev

/-- The field after the child at `position` has left the list and the others
have closed up. -/
def afterRemoval (position : Nat) : HeadPrev -> HeadPrev
  | null => null
  | .at target =>
      if target = position then stray
      else if position < target then .at (target - 1)
      else .at target
  | stray => stray

/-- The field after a node has been put in front of the child at `position`. -/
def afterInsertion (position : Nat) : HeadPrev -> HeadPrev
  | null => null
  | .at target => if position ≤ target then .at (target + 1) else .at target
  | stray => stray

/-- The field after the child at `position` has given way to another node and
has been deleted. -/
def afterReplacement (position : Nat) : HeadPrev -> HeadPrev
  | null => null
  | .at target => if target = position ∧ position ≠ 0 then stray else .at target
  | stray => stray

end HeadPrev

namespace Item

/-- Exchange the child list and its first `prev` field. -/
def withChildren (item : Item) (child : List Item) (headPrev : HeadPrev) : Item :=
  mk item.fields child headPrev

@[simp] theorem withChildren_child (item : Item) (child : List Item) (headPrev : HeadPrev) :
    (item.withChildren child headPrev).child = child := rfl

@[simp] theorem withChildren_headPrev (item : Item) (child : List Item) (headPrev : HeadPrev) :
    (item.withChildren child headPrev).headPrev = headPrev := rfl

@[simp] theorem withChildren_fields (item : Item) (child : List Item) (headPrev : HeadPrev) :
    (item.withChildren child headPrev).fields = item.fields := rfl

/-- Exchange the fields other than the links. -/
def withFields (item : Item) (fields : Fields) : Item :=
  mk fields item.child item.headPrev

/-- Rewrite the node a path leads to, and leave the rest as it is.  There is no result
if the path leads nowhere, or if the node cannot be rewritten. -/
def modify (change : Item -> Option Item) : Item -> Path -> Option Item
  | item, [] => change item
  | item, position :: path =>
      match item.child[position]? with
      | none => none
      | some next =>
          (next.modify change path).map
            (fun changed => item.withChildren (item.child.set position changed) item.headPrev)

end Item

/-- `add_item_to_array`, for a detached item.  The list grows behind the node
that the first child's `prev` names; if that is not the last child, the nodes
between are cut off, and if it is NULL, nothing happens at all.  A write
through a pointer to a node that has left the list has no result here. -/
def addItemToArray (array item : Item) : Option Item :=
  match array.child, array.headPrev with
  | [], _ => some (array.withChildren [item] (.at 0))
  | _ :: _, .null => some array
  | child, .at target => some (array.withChildren (child.take (target + 1) ++ [item]) (.at (target + 1)))
  | _ :: _, .stray => none

/-- `cJSON_DetachItemViaPointer`, for the child at `position`: the detached
child and what remains of the parent. -/
def cjsonDetachItemViaPointer (parent : Item) (position : Nat) : Option (Item × Item) :=
  match parent.child[position]? with
  | none => none
  | some item =>
      let remaining := parent.child.eraseIdx position
      let headPrev :=
        if position ≠ 0 ∧ position + 1 = parent.child.length then
          -- the last child of several: its own `prev` becomes the tail
          .at (position - 1)
        else parent.headPrev.afterRemoval position
      some (item, parent.withChildren remaining headPrev)

/-- `insert_item_in_array` of `utils.rs`, the status and the array.  An index up to
the length is fine, and the length itself means behind the last child; a larger one is
refused. -/
def insertItemInArray (array : Item) (which : Nat) (newitem : Item) : Option (Bool × Item) :=
  if array.child.length < which then
    -- item is after the end of the array
    some (false, array)
  else if which = array.child.length then
    (addItemToArray array newitem).map (true, ·)
  else
    some (true, array.withChildren (array.child.insertIdx which newitem)
      (array.headPrev.afterInsertion which))

/-- `cjson_insert_item_in_array`, the array: unchanged for a negative index, and
behind the last child there is only the end. -/
def cjsonInsertItemInArray (array : Item) (which : Int) (newitem : Item) : Option Item :=
  if which < 0 then some array
  else if which.toNat < array.child.length then
    some (array.withChildren (array.child.insertIdx which.toNat newitem)
      (array.headPrev.afterInsertion which.toNat))
  else addItemToArray array newitem

/-- `cjson_detach_item_from_array`. -/
def cjsonDetachItemFromArray (array : Item) (which : Int) : Option (Item × Item) :=
  if which < 0 then none else cjsonDetachItemViaPointer array which.toNat

/-- `cjson_replace_item_via_pointer`, for the child at `position`.  The replacement
takes over the neighbours of the child; if that was the last of several, the head is
told who its new last one is. -/
def cjsonReplaceItemViaPointer (parent : Item) (position : Nat) (replacement : Item) : Option Item :=
  if position < parent.child.length then
    let headPrev :=
      if position ≠ 0 ∧ position + 1 = parent.child.length then
        -- the last child of several: the first one's `prev` is set
        .at position
      else parent.headPrev.afterReplacement position
    some (parent.withChildren (parent.child.set position replacement) headPrev)
  else none

/-- `cjson_replace_item_in_array`. -/
def cjsonReplaceItemInArray (array : Item) (which : Int) (newitem : Item) : Option Item :=
  if which < 0 then none else cjsonReplaceItemViaPointer array which.toNat newitem

theorem Item.modify_isSome {change : Item -> Option Item} {item node : Item} {path : Item.Path}
    (found : item.at? path = some node) (changes : (change node).isSome = true) :
    (item.modify change path).isSome = true := by
  induction path generalizing item with
  | nil =>
      cases found
      exact changes
  | cons position path ih =>
      cases child : item.child[position]? with
      | none => simp [Item.at?, child] at found
      | some next =>
          simp only [Item.at?, child] at found
          simp [Item.modify, child, ih found]

theorem cjsonDetachItemViaPointer_eq_some {parent item : Item} {position : Nat}
    (child : parent.child[position]? = some item) :
    ∃ remaining, cjsonDetachItemViaPointer parent position = some (item, remaining) := by
  simp [cjsonDetachItemViaPointer, child]

end CJson
