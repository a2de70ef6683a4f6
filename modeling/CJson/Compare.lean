import CJson.Sort
import CJson.Print

/-!
# The comparison of the patch functions

`compare_json` of `utils.rs` compares objects by sorting them both and walking
along the two lists, so that it leaves the nodes it has looked at sorted.  What
a call returns is therefore an answer and two trees.  Its `compare_double` is
the one of `print.rs`.
-/

namespace CJson

open CString

/-- `strcmp`, which reads through both of its pointers. -/
def cstrCmp (a b : Option Bytes) : Option Int :=
  match a, b with
  | some a, some b => some (compareBy id a b)
  | _, _ => none

mutual

/-- How many nodes there are on the longest way down, the first one not
counted. -/
def Item.height : Item -> Nat
  | .mk _ child _ => Item.heightBelow child

def Item.heightBelow : List Item -> Nat
  | [] => 0
  | item :: rest => max (item.height + 1) (Item.heightBelow rest)

end

/-- The outcome of a comparison and the two trees it leaves.  `compare_json` sorts the
objects that it compares, in place, and whoever calls it goes on with the sorted
trees. -/
structure Compared (α : Type) where
  equal : Bool
  a : α
  b : α

/-- The walk along two child lists, with the comparison of two children, and of
their names if there are any. -/
def compareChildren (names : Item -> Item -> Bool) (compare : Item -> Item -> Option (Compared Item)) :
    List Item -> List Item -> Option (Compared (List Item))
  | a :: as, b :: bs =>
      if !names a b then some ⟨false, a :: as, b :: bs⟩
      else do
        let head ← compare a b
        if !head.equal then some ⟨false, head.a :: as, head.b :: bs⟩
        else do
          let rest ← compareChildren names compare as bs
          some ⟨rest.equal, head.a :: rest.a, head.b :: rest.b⟩
  | [], [] => some ⟨true, [], []⟩
  | as, bs => some ⟨false, as, bs⟩

/-- `compare_json` for two nodes, on a budget for the depth.  There is no result
when a string without a value is read. -/
def compareJson : Nat -> Item -> Item -> Bool -> Option (Compared Item)
  | 0, _, _, _ => none
  | fuel + 1, a, b, caseSensitive =>
      if a.base ≠ b.base then
        -- mismatched type
        some ⟨false, a, b⟩
      else
        match a.base with
        | .number =>
            some ⟨decide (a.fields.valueint = b.fields.valueint) &&
              compareDouble a.fields.valuedouble b.fields.valuedouble, a, b⟩
        | .string => do
            let order ← cstrCmp a.fields.valuestring b.fields.valuestring
            some ⟨decide (order = 0), a, b⟩
        | .array => do
            let below ← compareChildren (fun _ _ => true)
              (fun a b => compareJson fuel a b caseSensitive) a.child b.child
            some ⟨below.equal, a.withChildren below.a a.headPrev, b.withChildren below.b b.headPrev⟩
        | .object => do
            let a := sortObject a caseSensitive
            let b := sortObject b caseSensitive
            let below ← compareChildren
              (fun a b => compareStrings a.string b.string caseSensitive == 0)
              (fun a b => compareJson fuel a b caseSensitive) a.child b.child
            some ⟨below.equal, a.withChildren below.a a.headPrev, b.withChildren below.b b.headPrev⟩
        | _ =>
            -- null, true or false
            some ⟨true, a, b⟩

end CJson
