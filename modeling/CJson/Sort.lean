import CJson.Detach
import CJson.Library.MergeSort

/-!
# Sorting the members of an object

`sort_list` relinks the nodes of a list in the order of their names.  It writes
the `prev` field of every node that ends up behind another one, but not that of
the node that ends up first: a node that was first all along keeps what it had,
and a node that was first in a second half has lost its `prev` when the halves
were cut apart.
-/

namespace CJson

open CString

/-- `compare_strings`. -/
def compareStrings (string1 string2 : Option Bytes) (caseSensitive : Bool) : Int :=
  match string1, string2 with
  | some string1, some string2 => compareBy (caseFold caseSensitive) string1 string2
  | _, _ => 1

/-- The comparison that `sort_list` steps by. -/
def smallerName (caseSensitive : Bool) (first second : Item × Nat) : Bool :=
  compareStrings first.1.string second.1.string caseSensitive < 0

/-- `sort_list` on the children of a node, each with the position it had. -/
def sortList (list : List Item) (caseSensitive : Bool) : List (Item × Nat) :=
  MergeSort.sort (smallerName caseSensitive) list.zipIdx

/-- The `prev` field of the first node of the sorted list, from the positions
that the nodes had. -/
def HeadPrev.afterSort (order : List Nat) (headPrev : HeadPrev) : HeadPrev :=
  match order with
  | [] => headPrev
  | 0 :: _ =>
      match headPrev with
      | .at target => .at (order.idxOf target)
      | other => other
  | _ :: _ => .null

/-- `sort_object`. -/
def sortObject (object : Item) (caseSensitive : Bool) : Item :=
  let list := sortList object.child caseSensitive
  object.withChildren (list.map Prod.fst) (object.headPrev.afterSort (list.map Prod.snd))

@[simp] theorem sortObject_fields (object : Item) (caseSensitive : Bool) :
    (sortObject object caseSensitive).fields = object.fields := rfl

theorem sortList_perm (list : List Item) (caseSensitive : Bool) :
    ((sortList list caseSensitive).map Prod.fst).Perm list := by
  have perm := (@MergeSort.sort_perm _ (smallerName caseSensitive) list.zipIdx).map Prod.fst
  rwa [List.zipIdx_map_fst] at perm

theorem sortObject_child_perm (object : Item) (caseSensitive : Bool) :
    (sortObject object caseSensitive).child.Perm object.child :=
  sortList_perm object.child caseSensitive

end CJson
