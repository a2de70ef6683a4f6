import CJson.Library.Lockstep
import CJson.Merge
import CJson.Rearranged
import CJson.Rewrites

/-!
# Generating merge patches

`generate_merge_patch` of `utils.rs` sorts two objects in the mode it is called in,
walks along them by the bytes of the names, and calls itself in the mode that
ignores case.  The patch is an object that grows by one member at a time.
-/

namespace CJson

open CString Item Lockstep

/-- `cjson_create_null`. -/
def cjsonCreateNull : Item := .mk { type_ := { base := .null } } [] .null

/-- `cjson_add_item_to_object` on a patch, where a member without a name and an item that
could not be made add nothing. -/
def addToPatch (patch : Item) (string : Option Bytes) (item : Option Item) : Option Item :=
  match string, item with
  | some string, some item => cjsonAddItemToObject patch string item
  | _, _ => some patch

/-- A patch, and what sorting leaves of the two sides.  The generator sorts the
objects that it walks along, and its callers see the order. -/
structure MergeDiff (Patch Side : Type) where
  patch : Patch
  from_ : Side
  to_ : Side

/-- The loop of `generate_merge_patch`, along two lists of members sorted by name.
The names are compared byte by byte, also where the members have been sorted without
regard to case.  There is no result when a missing name is compared. -/
def generateMembers (compare : Item -> Item -> Option (Compared Item))
    (generate : Item -> Item -> Option (MergeDiff (Option Item) Item)) :
    Nat -> Item -> List Item -> List Item -> Option (MergeDiff Item (List Item))
  | 0, _, _, _ => none
  | _ + 1, patch, [], [] => some ⟨patch, [], []⟩
  | fuel + 1, patch, fromChild :: from_, [] => do
      let patch ← addToPatch patch fromChild.string (some cjsonCreateNull)
      let rest ← generateMembers compare generate fuel patch from_ []
      some ⟨rest.patch, fromChild :: rest.from_, rest.to_⟩
  | fuel + 1, patch, [], toChild :: to_ => do
      let patch ← addToPatch patch toChild.string (cjsonDuplicate toChild)
      let rest ← generateMembers compare generate fuel patch [] to_
      some ⟨rest.patch, rest.from_, toChild :: rest.to_⟩
  | fuel + 1, patch, fromChild :: from_, toChild :: to_ => do
      let diff ← cstrCmp fromChild.string toChild.string
      if diff < 0 then
        -- from has a value that to doesn't have -> remove
        let patch ← addToPatch patch fromChild.string (some cjsonCreateNull)
        let rest ← generateMembers compare generate fuel patch from_ (toChild :: to_)
        some ⟨rest.patch, fromChild :: rest.from_, rest.to_⟩
      else if 0 < diff then
        -- to has a value that from doesn't have -> add to patch
        let patch ← addToPatch patch toChild.string (cjsonDuplicate toChild)
        let rest ← generateMembers compare generate fuel patch (fromChild :: from_) to_
        some ⟨rest.patch, rest.from_, toChild :: rest.to_⟩
      else
        -- object key exists in both objects
        let compared ← compare fromChild toChild
        if compared.equal then
          let rest ← generateMembers compare generate fuel patch from_ to_
          some ⟨rest.patch, compared.a :: rest.from_, compared.b :: rest.to_⟩
        else
          -- not identical --> generate a patch
          let below ← generate compared.a compared.b
          let patch ← addToPatch patch compared.b.string below.patch
          let rest ← generateMembers compare generate fuel patch from_ to_
          some ⟨rest.patch, below.from_ :: rest.from_, below.to_ :: rest.to_⟩

/-- `generate_merge_patch` for two nodes, on a budget for the depth.  The patch is `none` for
NULL. -/
def generateMergePatch : Nat -> Item -> Item -> Bool -> Option (MergeDiff (Option Item) Item)
  | 0, _, _, _ => none
  | fuel + 1, from_, to_, caseSensitive =>
      if !to_.isObject || !from_.isObject then some ⟨cjsonDuplicate to_, from_, to_⟩
      else do
        let from_ := sortObject from_ caseSensitive
        let to_ := sortObject to_ caseSensitive
        let below ← generateMembers
          (fun fromChild toChild => compareJson (fromChild.height + 1) fromChild toChild caseSensitive)
          -- in the case-sensitive mode too, what is below is left to the other one
          (fun fromChild toChild => generateMergePatch fuel fromChild toChild false)
          (from_.child.length + to_.child.length + 1) cjsonCreateObject from_.child to_.child
        let from_ := from_.withChildren below.from_ from_.headPrev
        let to_ := to_.withChildren below.to_ to_.headPrev
        -- no patch generated
        if below.patch.child.isEmpty then some ⟨none, from_, to_⟩
        else some ⟨some below.patch, from_, to_⟩

/-- `generate_merge_patch`, whose arguments may be NULL.  Without a target the patch
is a `null`, which deletes everything; without a source it is a copy of the target. -/
def generateMergePatchOf (from_ to_ : Option Item) (caseSensitive : Bool) :
    Option (MergeDiff (Option Item) (Option Item)) :=
  match from_, to_ with
  | from_, none =>
      -- patch to delete everything
      some ⟨some cjsonCreateNull, from_, none⟩
  | none, some to_ => some ⟨cjsonDuplicate to_, none, some to_⟩
  | some from_, some to_ => do
      let diff ← generateMergePatch (from_.height + 1) from_ to_ caseSensitive
      some ⟨diff.patch, some diff.from_, some diff.to_⟩

/-- `cJSONUtils_GenerateMergePatch`. -/
def cjsonUtilsGenerateMergePatch (from_ to_ : Option Item) :
    Option (MergeDiff (Option Item) (Option Item)) :=
  generateMergePatchOf from_ to_ false

/-- `cJSONUtils_GenerateMergePatchCaseSensitive`. -/
def cjsonUtilsGenerateMergePatchCaseSensitive (from_ to_ : Option Item) :
    Option (MergeDiff (Option Item) (Option Item)) :=
  generateMergePatchOf from_ to_ true

/-! ## The loop -/

/-- The order of names that the loop steps by. -/
def byBytes (from_ to_ : Item) : Int :=
  compareBy id (from_.string.getD []) (to_.string.getD [])

/-- An object with these members, as appending leaves it. -/
def objectOf (members : List Item) : Item :=
  .mk { type_ := { base := .object } } members (.ofList members)

/-- The members that a turn of the loop adds to the patch: a `null` for a member that
is gone, a copy for one that is new, and a patch for one that has changed.  A copy or
a patch that does not come about adds none. -/
def turnMembers (compare : Item -> Item -> Option (Compared Item))
    (generate : Item -> Item -> Option (MergeDiff (Option Item) Item)) : Turn Item Item -> List Item
  | .left fromChild => [namedItem (fromChild.string.getD []) cjsonCreateNull]
  | .right toChild => ((cjsonDuplicate toChild).map (namedItem (toChild.string.getD []))).toList
  | .both fromChild toChild =>
      match compare fromChild toChild with
      | none => []
      | some compared =>
          if compared.equal then []
          else (((generate compared.a compared.b).bind MergeDiff.patch).map
            (namedItem (compared.b.string.getD []))).toList

section Loop

variable {compare : Item -> Item -> Option (Compared Item)}
  {generate : Item -> Item -> Option (MergeDiff (Option Item) Item)}

theorem addToPatch_eq {string : Option Bytes} (named : string.isSome) (members : List Item)
    (item : Option Item) :
    addToPatch (objectOf members) string item =
      some (objectOf (members ++ (item.map (namedItem (string.getD []))).toList)) := by
  rcases Option.isSome_iff_exists.mp named with ⟨name, rfl⟩
  cases item with
  | none =>
      rw [Option.map_none, Option.toList_none, List.append_nil]
      rfl
  | some item =>
      have last : (objectOf members).child ≠ [] ->
          (objectOf members).headPrev = .at ((objectOf members).child.length - 1) := by
        intro nonempty
        exact if_neg fun empty => nonempty (List.isEmpty_iff.mp empty)
      rw [addToPatch, cjsonAddItemToObject, addItemToArray_of_last last]
      have more : HeadPrev.ofList (members ++ [namedItem name item]) = .at members.length := by
        rw [HeadPrev.ofList, if_neg (by simp), List.length_append, List.length_singleton, Nat.add_sub_cancel]
      have grown : objectOf (members ++ [namedItem name item]) =
          .mk { type_ := { base := .object } } (members ++ [namedItem name item]) (.at members.length) := by
        rw [objectOf, more]
      rw [Option.map_some, Option.toList_some, Option.getD_some, grown]
      rfl

theorem cstrCmp_eq {old new : Item} (named : old.string.isSome) (otherNamed : new.string.isSome) :
    cstrCmp old.string new.string = some (byBytes old new) := by
  rcases Option.isSome_iff_exists.mp named with ⟨name, stored⟩
  rcases Option.isSome_iff_exists.mp otherNamed with ⟨other, otherStored⟩
  rw [byBytes, stored, otherStored]
  rfl

/-- What the loop leaves of a pair that it compares.  The comparison sorts first and
the generator sorts again, and both leave rearrangements of what they have been given. -/
structure Pairs (compare : Item -> Item -> Option (Compared Item))
    (generate : Item -> Item -> Option (MergeDiff (Option Item) Item)) (old new : Item)
    (compared : Compared Item) (below : MergeDiff (Option Item) Item) : Prop where
  compares : compare old new = some compared
  generates : generate compared.a compared.b = some below
  oldCompared : Rearranged old compared.a
  newCompared : Rearranged new compared.b
  oldBelow : Rearranged compared.a below.from_
  newBelow : Rearranged compared.b below.to_

/-- The loop takes the turns of the walk, and the patch collects what each of them
adds.  The two lists come back with their elements rearranged, since comparing and
diffing sort what they look at. -/
theorem generateMembers_eq {fuel : Nat} {members from_ to_ : List Item}
    (enough : from_.length + to_.length < fuel) (fromNamed : ∀ old ∈ from_, old.string.isSome)
    (toNamed : ∀ new ∈ to_, new.string.isSome)
    (pairs : ∀ old ∈ from_, ∀ new ∈ to_, ∃ compared below, Pairs compare generate old new compared below) :
    ∃ fromLeft toLeft, generateMembers compare generate fuel (objectOf members) from_ to_ =
        some ⟨objectOf (members ++ (walk byBytes from_ to_).flatMap (turnMembers compare generate)),
          fromLeft, toLeft⟩ ∧
      List.Forall₂ Rearranged from_ fromLeft ∧ List.Forall₂ Rearranged to_ toLeft := by
  induction from_, to_ using walk.induct byBytes generalizing fuel members with
  | case1 =>
      cases fuel with
      | zero => omega
      | succ fuel =>
          refine ⟨[], [], ?_, .nil, .nil⟩
          rw [generateMembers, walk, List.flatMap_nil, List.append_nil]
  | case2 old from_ ih =>
      cases fuel with
      | zero => omega
      | succ fuel =>
          rw [List.length_cons] at enough
          rw [List.forall_mem_cons] at fromNamed pairs
          rcases @ih fuel (members ++ [namedItem (old.string.getD []) cjsonCreateNull])
            (by omega) fromNamed.2 toNamed pairs.2 with ⟨fromLeft, toLeft, ran, fromSame, toSame⟩
          refine ⟨old :: fromLeft, toLeft, ?_, .cons (.refl old) fromSame, toSame⟩
          rw [generateMembers, addToPatch_eq fromNamed.1, walk, List.flatMap_cons, turnMembers, ← List.append_assoc]
          simp only [Option.map_some, Option.toList_some, Option.bind_eq_bind, Option.bind_some, ran]
  | case3 new to_ ih =>
      cases fuel with
      | zero => omega
      | succ fuel =>
          rw [List.length_cons] at enough
          rw [List.forall_mem_cons] at toNamed
          rcases @ih fuel (members ++ ((cjsonDuplicate new).map (namedItem (new.string.getD []))).toList)
            (by omega) fromNamed toNamed.2 (fun _ impossible => by cases impossible) with
            ⟨fromLeft, toLeft, ran, fromSame, toSame⟩
          refine ⟨fromLeft, new :: toLeft, ?_, fromSame, .cons (.refl new) toSame⟩
          rw [generateMembers, addToPatch_eq toNamed.1, walk, List.flatMap_cons, turnMembers, ← List.append_assoc]
          simp only [Option.bind_eq_bind, Option.bind_some, ran]
  | case4 old from_ new to_ less ih =>
      cases fuel with
      | zero => omega
      | succ fuel =>
          rw [List.length_cons] at enough
          have laterPairs := (List.forall_mem_cons.mp pairs).2
          rw [List.forall_mem_cons] at fromNamed
          rcases @ih fuel (members ++ [namedItem (old.string.getD []) cjsonCreateNull])
            (by omega) fromNamed.2 toNamed laterPairs with ⟨fromLeft, toLeft, ran, fromSame, toSame⟩
          refine ⟨old :: fromLeft, toLeft, ?_, .cons (.refl old) fromSame, toSame⟩
          rw [generateMembers, cstrCmp_eq fromNamed.1 (toNamed new List.mem_cons_self),
            addToPatch_eq fromNamed.1, walk, if_pos less, List.flatMap_cons, turnMembers, ← List.append_assoc]
          simp only [Option.map_some, Option.toList_some, Option.bind_eq_bind, Option.bind_some, if_pos less, ran]
  | case5 old from_ new to_ notLess more ih =>
      cases fuel with
      | zero => omega
      | succ fuel =>
          rw [List.length_cons, List.length_cons] at enough
          have laterPairs : ∀ other ∈ old :: from_, ∀ next ∈ to_, ∃ compared below,
              Pairs compare generate other next compared below :=
            fun other member next inside => pairs other member next (List.mem_cons_of_mem _ inside)
          rw [List.forall_mem_cons] at toNamed
          rcases @ih fuel (members ++ ((cjsonDuplicate new).map (namedItem (new.string.getD []))).toList)
            (by rw [List.length_cons]; omega) fromNamed toNamed.2 laterPairs with
            ⟨fromLeft, toLeft, ran, fromSame, toSame⟩
          refine ⟨fromLeft, new :: toLeft, ?_, fromSame, .cons (.refl new) toSame⟩
          rw [generateMembers, cstrCmp_eq (fromNamed old List.mem_cons_self) toNamed.1,
            addToPatch_eq toNamed.1, walk, if_neg notLess, if_pos more, List.flatMap_cons, turnMembers,
            ← List.append_assoc]
          simp only [Option.bind_eq_bind, Option.bind_some, if_neg notLess, if_pos more, ran]
  | case6 old from_ new to_ notLess notMore ih =>
      cases fuel with
      | zero => omega
      | succ fuel =>
          rw [List.length_cons, List.length_cons] at enough
          have laterPairs : ∀ other ∈ from_, ∀ next ∈ to_, ∃ compared below,
              Pairs compare generate other next compared below :=
            fun other member next inside =>
              pairs other (List.mem_cons_of_mem _ member) next (List.mem_cons_of_mem _ inside)
          rcases pairs old List.mem_cons_self new List.mem_cons_self with ⟨compared, below, pair⟩
          rw [List.forall_mem_cons] at fromNamed toNamed
          rw [walk, if_neg notLess, if_neg notMore, List.flatMap_cons, turnMembers, pair.compares,
            generateMembers, cstrCmp_eq fromNamed.1 toNamed.1]
          simp only [Option.bind_eq_bind, Option.bind_some, if_neg notLess, if_neg notMore, pair.compares]
          by_cases equal : compared.equal = true
          · rcases @ih fuel members (by omega) fromNamed.2 toNamed.2 laterPairs with
              ⟨fromLeft, toLeft, ran, fromSame, toSame⟩
            refine ⟨compared.a :: fromLeft, compared.b :: toLeft, ?_, .cons pair.oldCompared fromSame,
              .cons pair.newCompared toSame⟩
            simp only [if_pos equal, ran, Option.bind_some, List.nil_append]
          · have bNamed : compared.b.string.isSome := by
              rw [pair.newCompared.string]
              exact toNamed.1
            rcases @ih fuel (members ++ (below.patch.map (namedItem (compared.b.string.getD []))).toList)
              (by omega) fromNamed.2 toNamed.2 laterPairs with ⟨fromLeft, toLeft, ran, fromSame, toSame⟩
            refine ⟨below.from_ :: fromLeft, below.to_ :: toLeft, ?_,
              .cons (pair.oldCompared.trans pair.oldBelow) fromSame,
              .cons (pair.newCompared.trans pair.newBelow) toSame⟩
            simp only [if_neg equal, pair.generates, Option.bind_some, addToPatch_eq bNamed, ran,
              List.append_assoc]

end Loop

end CJson
