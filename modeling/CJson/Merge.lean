import CJson.Members

/-!
# Merge patches

`merge_patch` of `utils.rs`: a patch that is not an object replaces the target,
and the members of an object are merged into it one after the other, each of them
taken out, merged and put behind the others.
-/

namespace CJson

open CString Item

/-- What `merge_patch` returns, `none` for NULL, and the patch it leaves. -/
structure Merged where
  target : Option Item
  patch : Item

/-- The member to be replaced, and the target without it.  A target that has no such
member, or no members at all, comes back as it is. -/
def detachMember (target : Item) (string : Option Bytes) (caseSensitive : Bool) :
    Option Item × Item :=
  let replaceMe := string.bind fun string =>
    if caseSensitive then cjsonDetachItemFromObjectCaseSensitive target string
    else cjsonDetachItemFromObject target string
  match replaceMe with
  | none => (none, target)
  | some (_, member, rest) => (some member, rest)

/-- The object that `merge_patch` merges into: a target of another kind is deleted and
an empty object created. -/
def mergeTarget : Option Item -> Item
  | some target => if target.isObject then target else cjsonCreateObject
  | none => cjsonCreateObject

mutual

/-- `merge_patch`, with recursion.  There is no result where a write goes through
a stray `prev` field. -/
def mergePatch : Option Item -> Item -> Bool -> Option Merged
  | target, .mk fields child headPrev, caseSensitive =>
      let patch := Item.mk fields child headPrev
      if !patch.isObject then
        -- scalar value, array or NULL, just duplicate
        some ⟨cjsonDuplicate patch, patch⟩
      else do
        let (target, child) ← mergeMembers (mergeTarget target) child caseSensitive
        some ⟨target, .mk fields child headPrev⟩

def mergeMembers : Item -> List Item -> Bool -> Option (Option Item × List Item)
  | target, [], _ => some (some target, [])
  | target, patchChild :: rest, caseSensitive =>
      if patchChild.isNull then do
        -- NULL is the indicator to remove a value
        let target := match patchChild.string with
          | none => target
          | some string => cjsonDeleteItemFromObject target string caseSensitive
        let (result, others) ← mergeMembers target rest caseSensitive
        some (result, patchChild :: others)
      else do
        let detached := detachMember target patchChild.string caseSensitive
        let merged ← mergePatch detached.1 patchChild caseSensitive
        match merged.target with
        | none => some (none, merged.patch :: rest)
        | some replacement => do
            let target ← match patchChild.string with
              | none => some detached.2
              | some string => cjsonAddItemToObject detached.2 string replacement
            let (result, others) ← mergeMembers target rest caseSensitive
            some (result, merged.patch :: others)

end

/-- `cJSONUtils_MergePatch`. -/
def cjsonUtilsMergePatch (target : Option Item) (patch : Item) : Option Merged :=
  mergePatch target patch false

/-- `cJSONUtils_MergePatchCaseSensitive`. -/
def cjsonUtilsMergePatchCaseSensitive (target : Option Item) (patch : Item) : Option Merged :=
  mergePatch target patch true

section Members

variable {caseSensitive : Bool} {target : Item}

/-- Detaching by name is a lookup and a detachment. -/
theorem detachMember_eq (target : Item) (string : Bytes) (caseSensitive : Bool) :
    detachMember target (some string) caseSensitive =
      match (getObjectItem target string caseSensitive).bind (cjsonDetachItemViaPointer target ·) with
      | none => (none, target)
      | some (member, rest) => (some member, rest) := by
  have found : (if caseSensitive then cjsonDetachItemFromObjectCaseSensitive target string
      else cjsonDetachItemFromObject target string) =
        (getObjectItem target string caseSensitive).bind fun position =>
          (cjsonDetachItemViaPointer target position).map (position, ·) := by
    cases caseSensitive with
    | true =>
        rw [if_pos rfl, cjsonDetachItemFromObjectCaseSensitive, cjsonGetObjectItemCaseSensitive]
        cases getObjectItem target string true <;> rfl
    | false =>
        rw [if_neg Bool.false_ne_true, cjsonDetachItemFromObject, cjsonGetObjectItem]
        cases getObjectItem target string false <;> rfl
  rw [detachMember, Option.bind_some, found]
  cases getObjectItem target string caseSensitive with
  | none => rfl
  | some position =>
      rw [Option.bind_some, Option.bind_some]
      cases cjsonDetachItemViaPointer target position <;> rfl

/-- What taking the member of a name out of an object leaves, if there is one.
Detaching it and deleting it leave the same object, and the value without that name. -/
theorem member_taken (wellFormed : target.WellFormed caseSensitive) (isObject : target.isObject = true)
    (string : Bytes) :
    ∃ replaceMe rest, detachMember target (some string) caseSensitive = (replaceMe, rest) ∧
      cjsonDeleteItemFromObject target string caseSensitive = rest ∧
      (∀ member ∈ replaceMe, member.WellFormed caseSensitive) ∧
      Json.member (some (target.json caseSensitive)) (foldName caseSensitive string) =
        replaceMe.map (json caseSensitive) ∧
      rest.WellFormed caseSensitive ∧ rest.fields = target.fields ∧
      rest.json caseSensitive = .object (Function.update
        (Json.member (some (target.json caseSensitive))) (foldName caseSensitive string) none) := by
  rw [detachMember_eq, cjsonDeleteItemFromObject]
  cases found : getObjectItem target string caseSensitive with
  | none =>
      have absent := member_absent wellFormed isObject found
      refine ⟨none, target, rfl, rfl, (fun _ impossible => by cases impossible), absent, wellFormed, rfl, ?_⟩
      rw [← absent, Function.update_eq_self]
      exact json_eq_member isObject
  | some position =>
      rcases member_detached wellFormed isObject found with
        ⟨member, rest, detached, memberWellFormed, value, restWellFormed, fields, restValue⟩
      simp only [Option.bind_some, detached]
      refine ⟨some member, rest, rfl, rfl, ?_, value, restWellFormed, fields, restValue⟩
      intro other same
      cases same
      exact memberWellFormed

end Members

/-! ## The merged value -/

mutual

/-- What merging a patch makes of a value.  Its members are merged one after the other, so
that among members of one name the later ones act on what the earlier ones have left. -/
def patched (caseSensitive : Bool) : Item -> Option (Json Bytes Scalar) -> Json Bytes Scalar
  | .mk fields child headPrev, target =>
      if fields.type_.base = .object then .object (patchedMembers caseSensitive child (Json.member target))
      else json caseSensitive (.mk fields child headPrev)

def patchedMembers (caseSensitive : Bool) : List Item -> (Bytes -> Option (Json Bytes Scalar)) ->
    Bytes -> Option (Json Bytes Scalar)
  | [], members => members
  | patchChild :: rest, members =>
      patchedMembers caseSensitive rest (Function.update members (patchChild.nameIn caseSensitive)
        (if patchChild.isNull then none
          else some (patched caseSensitive patchChild (members (patchChild.nameIn caseSensitive)))))

end

/-- A tree that can be merged: the members have names, and what is copied can be.
Objects are merged and not copied, so that only what is below them is asked to be
shallow. -/
inductive MergeReady (caseSensitive : Bool) : Item -> Prop where
  | whole {patch : Item} (notObject : patch.isObject = false) (shallow : patch.height ≤ cjsonCircularLimit)
      (distinct : patch.DistinctKeysIn caseSensitive) : MergeReady caseSensitive patch
  | members {patch : Item} (isObject : patch.isObject = true)
      (named : ∀ child ∈ patch.child, child.string.isSome)
      (below : ∀ child ∈ patch.child, MergeReady caseSensitive child) : MergeReady caseSensitive patch

section Merging

variable {caseSensitive : Bool}

theorem patched_object {patch : Item} (isObject : patch.isObject = true)
    (target : Option (Json Bytes Scalar)) :
    patched caseSensitive patch target =
      .object (patchedMembers caseSensitive patch.child (Json.member target)) := by
  cases patch with
  | mk fields child headPrev =>
      have base : fields.type_.base = .object := beq_iff_eq.mp isObject
      rw [patched, if_pos base, child_mk]

theorem patched_whole {patch : Item} (notObject : patch.isObject = false)
    (target : Option (Json Bytes Scalar)) : patched caseSensitive patch target = patch.json caseSensitive := by
  cases patch with
  | mk fields child headPrev =>
      have base : fields.type_.base ≠ .object := beq_eq_false_iff_ne.mp notObject
      rw [patched, if_neg base]

/-- Merging a patch into a target succeeds, whatever the target is, and gives what RFC
7396 says.  It is the claim about one patch that the induction on patches carries. -/
def Merges (caseSensitive : Bool) (patch : Item) : Prop :=
  ∀ target : Option Item, (∀ item ∈ target, item.WellFormed caseSensitive) ->
    ∃ result, mergePatch target patch caseSensitive = some ⟨some result, patch⟩ ∧
      result.WellFormed caseSensitive ∧
      result.json caseSensitive = patched caseSensitive patch (target.map (json caseSensitive))

/-- One member of the patch: a `null` removes the member of its name, anything else is
merged into it or becomes a new one.  The object goes on well formed, and its value is
that of RFC 7396 for one name. -/
theorem mergeMembers_step {target patchChild : Item} (rest : List Item)
    (wellFormed : target.WellFormed caseSensitive) (isObject : target.isObject = true)
    (named : patchChild.string.isSome)
    (merges : Merges caseSensitive patchChild) :
    ∃ next, next.WellFormed caseSensitive ∧ next.isObject = true ∧
      next.json caseSensitive = .object (patchedMembers caseSensitive [patchChild]
        (Json.member (some (target.json caseSensitive)))) ∧
      mergeMembers target (patchChild :: rest) caseSensitive =
        (mergeMembers next rest caseSensitive).map fun merged =>
          (merged.1, patchChild :: merged.2) := by
  rcases Option.isSome_iff_exists.mp named with ⟨string, stored⟩
  rcases member_taken wellFormed isObject string with
    ⟨replaceMe, remaining, detached, deleted, memberWellFormed, value, remainingWellFormed, fields,
      remainingValue⟩
  have remainingObject : remaining.isObject = true := by
    rw [Item.isObject, Item.base, fields]
    exact isObject
  rw [patchedMembers, patchedMembers, nameIn_of_string stored, mergeMembers]
  by_cases isNull : patchChild.isNull = true
  · rw [if_pos isNull, if_pos isNull, stored]
    simp only [deleted]
    refine ⟨remaining, remainingWellFormed, remainingObject, remainingValue, ?_⟩
    cases mergeMembers remaining rest caseSensitive <;> rfl
  · rw [if_neg isNull, if_neg isNull, stored, detached]
    rcases merges replaceMe memberWellFormed with ⟨replacement, merged, tidy, replacementValue⟩
    have free : Json.member (some (remaining.json caseSensitive)) (foldName caseSensitive string) =
        none := by
      rw [remainingValue, Json.member_object, Function.update_self]
    rcases member_added remainingWellFormed remainingObject tidy free with
      ⟨next, added, nextWellFormed, nextFields, nextValue⟩
    refine ⟨next, nextWellFormed, ?_, ?_, ?_⟩
    · rw [Item.isObject, Item.base, nextFields]
      exact remainingObject
    · rw [nextValue, remainingValue, Json.member_object, Function.update_idem, replacementValue, value]
    · simp only [merged, added, Option.bind_eq_bind, Option.bind_some]
      cases mergeMembers next rest caseSensitive <;> rfl

/-- The loop over the members of the patch, by induction along the list.  The patch
comes back as it was. -/
theorem mergeMembers_eq {target : Item} {children : List Item}
    (wellFormed : target.WellFormed caseSensitive) (isObject : target.isObject = true)
    (named : ∀ child ∈ children, child.string.isSome)
    (merges : ∀ child ∈ children, Merges caseSensitive child) :
    ∃ result, mergeMembers target children caseSensitive = some (some result, children) ∧
      result.WellFormed caseSensitive ∧
      result.json caseSensitive = .object (patchedMembers caseSensitive children
        (Json.member (some (target.json caseSensitive)))) := by
  induction children generalizing target with
  | nil => exact ⟨target, rfl, wellFormed, json_eq_member isObject⟩
  | cons child rest ih =>
      rcases mergeMembers_step rest wellFormed isObject (named child List.mem_cons_self)
        (merges child List.mem_cons_self) with ⟨next, nextWellFormed, nextObject, nextValue, stepped⟩
      rcases ih nextWellFormed nextObject (fun other member => named other (List.mem_cons_of_mem _ member))
        (fun other member => merges other (List.mem_cons_of_mem _ member)) with
        ⟨result, ran, resultWellFormed, resultValue⟩
      refine ⟨result, ?_, resultWellFormed, ?_⟩
      · rw [stepped, ran, Option.map_some]
      · rw [resultValue, nextValue, Json.member_object, patchedMembers, patchedMembers, patchedMembers]

/-- The members of the object that is merged into: those of the target if it is an
object, and none if it is anything else or missing. -/
theorem nestedTarget_wellFormed {target : Option Item}
    (wellFormed : ∀ item ∈ target, item.WellFormed caseSensitive) :
    (mergeTarget target).WellFormed caseSensitive ∧ (mergeTarget target).isObject = true ∧
      Json.member (some ((mergeTarget target).json caseSensitive)) =
        Json.member (target.map (json caseSensitive)) := by
  have created : cjsonCreateObject.WellFormed caseSensitive :=
    ⟨.mk (fun nonempty => absurd rfl nonempty) (fun _ impossible => absurd impossible List.not_mem_nil),
      .mk (fun _ => ⟨fun _ impossible => absurd impossible List.not_mem_nil, List.nodup_nil⟩)
        (fun _ impossible => absurd impossible List.not_mem_nil)⟩
  have empty : Json.member (some (cjsonCreateObject.json caseSensitive)) = fun _ => none := by
    funext name
    rw [json_object rfl, Json.member_object]
    rfl
  cases target with
  | none => exact ⟨created, rfl, empty⟩
  | some target =>
      rw [mergeTarget]
      by_cases isObject : target.isObject = true
      · rw [if_pos isObject]
        exact ⟨wellFormed target rfl, isObject, rfl⟩
      · rw [if_neg isObject]
        refine ⟨created, rfl, ?_⟩
        rw [empty, Option.map_some, Json.member_of_not_object]
        intro members same
        exact isObject (json_isObject_iff.mp ⟨members, same⟩)

/-- A tree that can be merged is merged. -/
theorem MergeReady.merges {patch : Item} (ready : MergeReady caseSensitive patch) :
    Merges caseSensitive patch := by
  induction ready with
  | @whole patch notObject shallow distinct =>
      intro target wellFormed
      rcases @duplicateRec_eq caseSensitive patch 0 shallow distinct with ⟨copy, made, copied⟩
      refine ⟨copy, ?_, copied.wellFormed, ?_⟩
      · cases patch with
        | mk fields child headPrev =>
            rw [mergePatch, notObject, Bool.not_false, if_pos rfl, cjsonDuplicate, made]
      · rw [copied.json, patched_whole notObject]
  | @members patch isObject named _ ih =>
      intro target wellFormed
      rcases nestedTarget_wellFormed wellFormed with ⟨startWellFormed, startObject, members⟩
      rcases mergeMembers_eq startWellFormed startObject named ih with ⟨result, merged, tidy, value⟩
      refine ⟨result, ?_, tidy, ?_⟩
      · cases patch with
        | mk fields child headPrev =>
            rw [child_mk] at merged
            rw [mergePatch, isObject]
            simp only [Bool.not_true, Bool.false_eq_true, if_false, merged, Option.bind_eq_bind,
              Option.bind_some]
      · rw [value, patched_object isObject, members]

/-- A tree of different names that is not too deep can be merged. -/
theorem mergeReady_of_shallow {patch : Item} (shallow : patch.height ≤ cjsonCircularLimit)
    (distinct : patch.DistinctKeysIn caseSensitive) : MergeReady caseSensitive patch := by
  induction patch using Item.induct with
  | node fields child headPrev ih =>
      by_cases isObject : (Item.mk fields child headPrev).isObject = true
      · refine .members isObject (distinct.names isObject).1 fun next member => ?_
        rw [child_mk] at member
        apply ih next member _ (distinct.child member)
        have := height_lt_heightBelow member
        rw [height] at shallow
        omega
      · rw [Bool.not_eq_true] at isObject
        exact .whole isObject shallow distinct

/-- Members of different names act each on its own, so that the loop may be read off
name by name.  This is where the order of the members of the patch stops to matter. -/
theorem patchedMembers_eq {children : List Item} (distinct : (children.map (nameIn caseSensitive)).Nodup)
    (below : ∀ child ∈ children, ∀ target,
      patched caseSensitive child target = Json.mergePatch target (child.json caseSensitive))
    (members : Bytes -> Option (Json Bytes Scalar)) :
    patchedMembers caseSensitive children members =
      fun name => Json.mergeMember (members name) (jsonMembers caseSensitive children name) := by
  induction children generalizing members with
  | nil =>
      funext name
      rw [patchedMembers, jsonMembers, Json.mergeMember_none]
  | cons child rest ih =>
      have fresh := (List.nodup_cons.mp distinct).1
      rw [patchedMembers, ih (List.nodup_cons.mp distinct).2
        fun other member => below other (List.mem_cons_of_mem _ member)]
      funext name
      rw [jsonMembers]
      by_cases here : child.nameIn caseSensitive = name
      · subst here
        rw [if_pos rfl, Function.update_self, jsonMembers_eq_none_iff.mpr fresh, Json.mergeMember_none]
        by_cases isNull : child.isNull = true
        · rw [if_pos isNull, json_isNull_iff.mpr isNull, Json.mergeMember_null]
        · rw [if_neg isNull, below child List.mem_cons_self,
            Json.mergeMember_some (fun same => isNull (json_isNull_iff.mp same))]
      · rw [if_neg here, Function.update_of_ne (Ne.symm here)]

/-- Merging a tree of different names is what RFC 7396 says. -/
theorem patched_eq {patch : Item} (distinct : patch.DistinctKeysIn caseSensitive)
    (target : Option (Json Bytes Scalar)) :
    patched caseSensitive patch target = Json.mergePatch target (patch.json caseSensitive) := by
  induction patch using Item.induct generalizing target with
  | node fields child headPrev ih =>
      by_cases isObject : (Item.mk fields child headPrev).isObject = true
      · rw [patched_object isObject, json_object isObject, Json.mergePatch,
          patchedMembers_eq (distinct.names isObject).2
            fun next member target => ih next member (distinct.child member) target]
      · have notObject : (Item.mk fields child headPrev).isObject = false := by simpa using isObject
        rw [patched_whole notObject, Json.mergePatch_of_not_object]
        intro members same
        exact isObject (json_isObject_iff.mp ⟨members, same⟩)

end Merging

/-- `cJSONUtils_MergePatchCaseSensitive` implements RFC 7396.  Merging a patch with
different sibling names, not nested deeper than the limit for copies, into NULL or
into any tree with well-linked lists and different sibling names returns a tree
with well-linked lists whose value is `MergePatch` of the two values, and leaves
the patch as it is. -/
theorem mergePatch_implements_rfc7396 (target : Option Item) (patch : Item)
    (linked : ∀ item ∈ target, item.WellLinked) (distinct : ∀ item ∈ target, item.DistinctKeys)
    (patchDistinct : patch.DistinctKeys) (shallow : patch.height ≤ cjsonCircularLimit) :
    ∃ result, cjsonUtilsMergePatchCaseSensitive target patch = some ⟨some result, patch⟩ ∧
      result.json true = Json.mergePatch (target.map (json true)) (patch.json true) ∧
      result.WellLinked ∧ result.DistinctKeys := by
  have wellFormed : ∀ item ∈ target, item.WellFormed true := fun item same =>
    ⟨linked item same, distinctKeysIn_true.mpr (distinct item same)⟩
  have distinctIn := distinctKeysIn_true.mpr patchDistinct
  rcases (mergeReady_of_shallow shallow distinctIn).merges target wellFormed with ⟨result, merged, tidy, value⟩
  rw [patched_eq distinctIn] at value
  exact ⟨result, merged, value, tidy.linked, distinctKeysIn_true.mp tidy.distinct⟩

/-- A leaf with a name. -/
def leafMember (base : BaseType) (name : Bytes) (valuestring : Option Bytes) : Item :=
  .mk { type_ := { base := base }, valuestring := valuestring, string := some name } [] .null

/-- The tree `{"a": null, "b": {"c": null}}`. -/
def nestedTarget : Item :=
  .mk { type_ := { base := .object } }
    [leafMember .null [97] none,
      .mk { type_ := { base := .object }, string := some [98] } [leafMember .null [99] none] (.at 0)] (.at 1)

/-- The tree `{"a": null, "b": {"c": "x\"y", "d": ["z"]}}`. -/
def nestedPatch : Item :=
  .mk { type_ := { base := .object } }
    [leafMember .null [97] none,
      .mk { type_ := { base := .object }, string := some [98] }
        [leafMember .string [99] (some [120, 34, 121, 0]),
          .mk { type_ := { base := .array }, string := some [100] }
            [.mk { type_ := { base := .string }, valuestring := some [122, 0] } [] .null] (.at 0)] (.at 1)] (.at 1)

private theorem distinctKeys_childless (fields : Fields) : (Item.mk fields [] .null).DistinctKeys :=
  .mk (fun _ => ⟨fun _ impossible => absurd impossible List.not_mem_nil, List.nodup_nil⟩)
    (fun _ impossible => absurd impossible List.not_mem_nil)

private theorem wellLinked_childless (fields : Fields) : (Item.mk fields [] .null).WellLinked :=
  .mk (fun nonempty => absurd rfl nonempty) (fun _ impossible => absurd impossible List.not_mem_nil)

private theorem nestedTarget_distinctKeys : nestedTarget.DistinctKeys := by
  refine .mk (fun _ => ⟨by decide, by decide⟩) (List.forall_mem_cons.mpr ⟨distinctKeys_childless _, ?_⟩)
  refine List.forall_mem_singleton.mpr (.mk (fun _ => ⟨by decide, by decide⟩) ?_)
  exact List.forall_mem_singleton.mpr (distinctKeys_childless _)

private theorem nestedTarget_wellLinked : nestedTarget.WellLinked := by
  refine .mk (fun _ => rfl) (List.forall_mem_cons.mpr ⟨wellLinked_childless _, ?_⟩)
  refine List.forall_mem_singleton.mpr (.mk (fun _ => rfl) ?_)
  exact List.forall_mem_singleton.mpr (wellLinked_childless _)

private theorem nestedPatch_distinctKeys : nestedPatch.DistinctKeys := by
  refine .mk (fun _ => ⟨by decide, by decide⟩) (List.forall_mem_cons.mpr ⟨distinctKeys_childless _, ?_⟩)
  refine List.forall_mem_singleton.mpr (.mk (fun _ => ⟨by decide, by decide⟩) ?_)
  refine List.forall_mem_cons.mpr ⟨distinctKeys_childless _, List.forall_mem_singleton.mpr ?_⟩
  refine .mk (fun impossible => by cases impossible) ?_
  exact List.forall_mem_singleton.mpr (distinctKeys_childless _)

/-- The patch takes `a` away, replaces `c` in `b`, and puts a list next to it. -/
theorem mergePatch_implements_rfc7396_nested :
    ∃ result, cjsonUtilsMergePatchCaseSensitive (some nestedTarget) nestedPatch =
        some ⟨some result, nestedPatch⟩ ∧
      result.json true = Json.mergePatch ((some nestedTarget).map (json true)) (nestedPatch.json true) ∧
      result.WellLinked ∧ result.DistinctKeys := by
  apply mergePatch_implements_rfc7396
  · intro item same
    cases same
    exact nestedTarget_wellLinked
  · intro item same
    cases same
    exact nestedTarget_distinctKeys
  · exact nestedPatch_distinctKeys
  · decide

end CJson
