import CJson.Steady

/-!
# One patch on two documents that differ in the order of members

A patch does the same to a document and to a rearrangement of it, unless it meets one of the
two weak points of the code: a list of members whose tail has got lost, and a lookup that
ignores case.
-/

namespace CJson

open CString Item Matching

/-! ## Comparing -/

section Comparing

variable {caseSensitive : Bool}

/-- Comparisons that come to the same, with trees that are rearranged on the one side
and are the same on the other.  That side is the value of a patch: the same in both
runs, and sorted by both in the same way. -/
structure Alike (first second : Compared Item) : Prop where
  equal : first.equal = second.equal
  left : Rearranged first.a second.a
  right : first.b = second.b

theorem compareChildren_rel {names : Item -> Item -> Bool} {compare : Item -> Item -> Option (Compared Item)}
    {as others bs : List Item} (pairs : List.Forall₂ Rearranged as others)
    (named : ∀ a ∈ as, ∀ other b, Rearranged a other -> names other b = names a b)
    (compares : ∀ a ∈ as, ∀ other b, Rearranged a other -> Option.Rel Alike (compare a b) (compare other b)) :
    Option.Rel (fun first second : Compared (List Item) => first.equal = second.equal ∧
        List.Forall₂ Rearranged first.a second.a ∧ first.b = second.b)
      (compareChildren names compare as bs) (compareChildren names compare others bs) := by
  induction pairs generalizing bs with
  | nil => cases bs <;> exact .some ⟨rfl, .nil, rfl⟩
  | @cons a other as others head tail ih =>
      cases bs with
      | nil => exact .some ⟨rfl, .cons head tail, rfl⟩
      | cons b bs =>
          rw [List.forall_mem_cons] at named compares
          rw [compareChildren, compareChildren, named.1 other b head]
          by_cases differ : (!names a b) = true
          · rw [if_pos differ, if_pos differ]
            exact .some ⟨rfl, .cons head tail, rfl⟩
          rw [if_neg differ, if_neg differ]
          have heads := compares.1 other b head
          generalize compare a b = first at heads ⊢
          generalize compare other b = second at heads ⊢
          cases heads with
          | none => exact .none
          | @some first second alike =>
              simp only [Option.bind_eq_bind, Option.bind_some, alike.equal, alike.right]
              by_cases unequal : (!second.equal) = true
              · rw [if_pos unequal, if_pos unequal]
                exact .some ⟨rfl, .cons alike.left tail, rfl⟩
              rw [if_neg unequal, if_neg unequal]
              have rests := @ih bs named.2 compares.2
              generalize compareChildren names compare as bs = first' at rests ⊢
              generalize compareChildren names compare others bs = second' at rests ⊢
              cases rests with
              | none => exact .none
              | some same => exact .some ⟨same.1, .cons alike.left same.2.1, congrArg (List.cons second.b) same.2.2⟩

/-- `compare_json` does not see the order of the members, and does the same to its second tree. -/
theorem compareJson_rel {fuel : Nat} {a other b : Item} (same : Rearranged a other)
    (distinct : a.DistinctKeysIn caseSensitive) :
    Option.Rel Alike (compareJson fuel a b caseSensitive) (compareJson fuel other b caseSensitive) := by
  induction fuel generalizing a other b with
  | zero => exact .none
  | succ fuel ih =>
      have base : other.base = a.base := by rw [Item.base, Item.base, same.fields]
      rw [compareJson, compareJson, base, same.fields]
      by_cases sameBase : a.base = b.base
      · rw [if_neg (not_not.mpr sameBase), if_neg (not_not.mpr sameBase)]
        cases kind : a.base with
        | invalid => exact .some ⟨rfl, same, rfl⟩
        | raw => exact .some ⟨rfl, same, rfl⟩
        | null => exact .some ⟨rfl, same, rfl⟩
        | false => exact .some ⟨rfl, same, rfl⟩
        | true => exact .some ⟨rfl, same, rfl⟩
        | number => exact .some ⟨rfl, same, rfl⟩
        | string =>
            cases cstrCmp a.fields.valuestring b.fields.valuestring with
            | none => exact .none
            | some order => exact .some ⟨rfl, same, rfl⟩
        | array =>
            have notObject : a.isObject = false := by rw [Item.isObject, kind]; rfl
            have walked := @compareChildren_rel (fun _ _ => true) (fun a b => compareJson fuel a b caseSensitive)
              _ _ b.child (same.matched.pairs notObject) (fun _ _ _ _ _ => rfl)
              (fun next member _ _ related => ih related (distinct.child member))
            simp only
            generalize compareChildren _ _ a.child b.child = first at walked ⊢
            generalize compareChildren _ _ other.child b.child = second at walked ⊢
            cases walked with
            | none => exact .none
            | some lists =>
                refine .some ⟨lists.1, ?_, ?_⟩
                · exact same.exchange (.of_forall₂ lists.2.1)
                · exact congrArg (b.withChildren · b.headPrev) lists.2.2
        | object =>
            have names := distinct.names (beq_iff_eq.mpr kind)
            have below : ∀ next ∈ (sortObject a caseSensitive).child, next.DistinctKeysIn caseSensitive :=
              fun next inside => distinct.child ((sortObject_child_perm a caseSensitive).mem_iff.mp inside)
            have walked := @compareChildren_rel (fun a b => compareStrings a.string b.string caseSensitive == 0)
              (fun a b => compareJson fuel a b caseSensitive) _ _ (sortObject b caseSensitive).child
              (same.sorted names)
              (fun _ _ _ b related => congrArg (compareStrings · b.string caseSensitive == 0) related.string)
              (fun next member _ _ related => ih related (below next member))
            simp only
            generalize compareChildren _ _ (sortObject a caseSensitive).child _ = first at walked ⊢
            generalize compareChildren _ _ (sortObject other caseSensitive).child _ = second at walked ⊢
            cases walked with
            | none => exact .none
            | some lists =>
                refine .some ⟨lists.1, ?_, ?_⟩
                · refine .of_matched same.fields ?_
                  exact .of_forall₂ lists.2.1
                · exact congrArg ((sortObject b caseSensitive).withChildren · _) lists.2.2
      · rw [if_pos sameBase, if_pos sameBase]
        exact .some ⟨rfl, same, rfl⟩

end Comparing

/-! ## The two weak points -/

/-- A lookup that ignores case does not come to a member of another name, unless there
is no second one that it could come to.  Otherwise the order of the members decides
what is found, and sorting them changes it. -/
def FoundByName (caseSensitive : Bool) (parent : Item) (name : Bytes) : Prop :=
  ShadowedByCase parent name -> ∀ first ∈ parent.child, ∀ second ∈ parent.child,
    SameName false first.key name -> SameName false second.key name ->
      first.nameIn caseSensitive = second.nameIn caseSensitive

/-- What `detach_path` takes out of an object is found by its name.  The condition
speaks of the parent that the path leads to in the document at hand, and says nothing
where it leads to no object. -/
def TakesByName (caseSensitive : Bool) (object : Item) (pointer : Bytes) : Prop :=
  ∀ place parent name, lastStep object pointer caseSensitive = some (place, parent, name) -> parent.isObject = true ->
    FoundByName caseSensitive parent (text name)

/-- The object that a member is put into knows its tail.  Appending goes by
`head.prev`, and in an object that `sort_object` has left without it the new member
takes the place of all but the first. -/
def PutsBehind (caseSensitive : Bool) (object : Item) (pointer : Bytes) : Prop :=
  ∀ place parent name, lastStep object pointer caseSensitive = some (place, parent, name) -> parent.isObject = true ->
    (cjsonDeleteItemFromObject parent name caseSensitive).KnowsTail

/-- What is taken out and what is left, in both runs: each is a rearrangement of its
counterpart.  The first components, where the node was found, may differ, since
sorting has moved it. -/
def TakenAlike {γ : Type} (taken otherTaken : γ × Item × Item) : Prop :=
  Rearranged taken.2.1 otherTaken.2.1 ∧ Rearranged taken.2.2 otherTaken.2.2

section Steps

variable {caseSensitive : Bool} {object other : Item}

/-- The lookup of `detach_path`, which has no regard to case, finds partners in two
objects that differ in the order of members, or finds nothing in both.  It has to find
the member of the name itself for that, whichever member comes first. -/
theorem cjsonGetObjectItem_rel {name : Bytes} (same : Rearranged object other)
    (distinct : DistinctNamesIn caseSensitive object.child)
    (byName : FoundByName caseSensitive object (text name))
    (otherByName : FoundByName caseSensitive other (text name)) :
    Option.Rel (fun index place => ∃ item last,
        Partners Rearranged (object.isObject = false) object.child other.child index place item last)
      (cjsonGetObjectItem object name) (cjsonGetObjectItem other name) := by
  have otherDistinct := same.distinctNames distinct
  rw [cjsonGetObjectItem, cjsonGetObjectItem, getObjectItem_eq_findIdx distinct.1,
    getObjectItem_eq_findIdx otherDistinct.1]
  by_cases one : ∀ first ∈ object.child, ∀ second ∈ object.child, SameName false first.key (text name) ->
      SameName false second.key (text name) -> first.nameIn caseSensitive = second.nameIn caseSensitive
  · refine rel_imp (same.matched.find distinct.2 ?_ ?_) fun _ _ found =>
      found.imp fun _ others => others.imp fun _ both => both.1
    · intro item last related
      rw [related.nameIn]
    · intro first here second there isFirst isSecond
      have isFirst : first.nameIn false = foldName false name := of_decide_eq_true isFirst
      have isSecond : second.nameIn false = foldName false name := of_decide_eq_true isSecond
      exact one first here second there isFirst isSecond
  · -- two members could be meant: in neither object another one stands before the member of the name
    have clear : ¬ ShadowedByCase object (text name) := fun shadowed => one (byName shadowed)
    have otherClear : ¬ ShadowedByCase other (text name) := by
      intro shadowed
      apply one
      intro first here second there isFirst isSecond
      rcases List.mem_iff_getElem?.mp here with ⟨index, here⟩
      rcases List.mem_iff_getElem?.mp there with ⟨index', there⟩
      rcases same.matched.partners here with ⟨place, last, partners⟩
      rcases same.matched.partners there with ⟨place', last', partners'⟩
      have names := otherByName shadowed last (List.mem_of_getElem? partners.there) last'
        (List.mem_of_getElem? partners'.there)
      rw [partners.pair.nameIn, partners'.pair.nameIn, key, key, partners.pair.string, partners'.pair.string] at names
      exact names isFirst isSecond
    have exactly : ∀ {parent : Item}, ¬ ShadowedByCase parent (text name) ->
        parent.child.findIdx? (fun member => decide (member.nameIn false = foldName false name)) =
          parent.child.findIdx? (fun member => decide (member.key = text name)) := by
      intro parent clear
      refine (findIdx_agree _ _ (fun member _ => ?_) (fun member _ => decide_eq_true_iff)).mpr clear
      rw [decide_eq_true_iff]
      rfl
    rw [exactly clear, exactly otherClear]
    refine rel_imp (same.matched.find distinct.2 ?_ ?_) fun _ _ found =>
      found.imp fun _ others => others.imp fun _ both => both.1
    · intro item last related
      rw [key, key, related.string]
    · intro first _ second _ isFirst isSecond
      rw [nameIn, nameIn, of_decide_eq_true isFirst, of_decide_eq_true isSecond]

theorem cjsonDetachItemFromObject_rel {name : Bytes} (same : Rearranged object other)
    (distinct : DistinctNamesIn caseSensitive object.child)
    (byName : FoundByName caseSensitive object (text name))
    (otherByName : FoundByName caseSensitive other (text name)) :
    Option.Rel TakenAlike (cjsonDetachItemFromObject object name) (cjsonDetachItemFromObject other name) := by
  have found := cjsonGetObjectItem_rel same distinct byName otherByName
  rw [cjsonDetachItemFromObject, cjsonDetachItemFromObject]
  generalize cjsonGetObjectItem object name = here at found ⊢
  generalize cjsonGetObjectItem other name = there at found ⊢
  cases found with
  | none => exact .none
  | some both =>
      rcases both with ⟨item, last, partners⟩
      simp only [cjsonDetachItemViaPointer, partners.here, partners.there, Option.map_some]
      exact .some ⟨partners.pair, same.exchange partners.rest⟩

/-! ## Taking out and putting in -/

/-- The last steps end at counterparts. -/
theorem lastStep_rel {pointer : Bytes} (same : Rearranged object other)
    (distinct : object.DistinctKeysIn caseSensitive) :
    Option.Rel (fun step otherStep => otherStep.2.2 = step.2.2 ∧
        Counterparts object other step.1 otherStep.1 step.2.1 otherStep.2.1)
      (lastStep object pointer caseSensitive) (lastStep other pointer caseSensitive) := by
  rw [lastStep, lastStep]
  cases splitPointer (cjsonUtilsStrdup pointer) with
  | none => exact .none
  | some pointers =>
      rw [Option.bind_some, Option.bind_some]
      refine rel_bind (getItemFromPointer_rel pointers.1 same distinct) fun path place both => ?_
      rcases both with ⟨node, last, counterparts⟩
      rw [counterparts.here, counterparts.there]
      exact .some ⟨rfl, counterparts⟩

theorem detachChild_rel {name : Bytes} (same : Rearranged object other)
    (distinct : object.DistinctKeysIn caseSensitive)
    (byName : object.isObject = true -> FoundByName caseSensitive object (text name))
    (otherByName : other.isObject = true -> FoundByName caseSensitive other (text name)) :
    Option.Rel TakenAlike (detachChild object name) (detachChild other name) := by
  rw [detachChild, detachChild, same.isArray, same.isObject]
  by_cases array : object.isArray = true
  · rw [if_pos array, if_pos array]
    cases decodeArrayIndexFromPointer name with
    | none => exact .none
    | some index =>
        simp only [detachItemFromArray]
        cases there : object.child[index]? with
        | none =>
            have otherThere : other.child[index]? = none := by
              rw [List.getElem?_eq_none_iff] at there ⊢
              rwa [same.matched.length_eq]
            simp only [cjsonDetachItemViaPointer, there, otherThere]
            exact .none
        | some item =>
            rcases same.matched.partners there with ⟨place, last, partners⟩
            have position := partners.same (not_isObject_eq_false array)
            subst position
            simp only [cjsonDetachItemViaPointer, partners.here, partners.there, Option.map_some]
            exact .some ⟨partners.pair, same.exchange partners.rest⟩
  · rw [if_neg array, if_neg array]
    by_cases isObject : object.isObject = true
    · rw [if_pos isObject, if_pos isObject]
      exact cjsonDetachItemFromObject_rel same (distinct.names isObject) (byName isObject)
        (otherByName (same.isObject.trans isObject))
    · rw [if_neg isObject, if_neg isObject]
      exact .none

theorem detachPath_rel {pointer : Bytes} (same : Rearranged object other)
    (distinct : object.DistinctKeysIn caseSensitive)
    (byName : TakesByName caseSensitive object pointer) (otherByName : TakesByName caseSensitive other pointer) :
    Option.Rel TakenAlike (detachPath object pointer caseSensitive) (detachPath other pointer caseSensitive) := by
  have steps := @lastStep_rel caseSensitive _ _ pointer same distinct
  rw [detachPath_eq, detachPath_eq]
  cases here : lastStep object pointer caseSensitive with
  | none =>
      rw [here] at steps
      generalize lastStep other pointer caseSensitive = step at steps
      cases steps
      exact .none
  | some step =>
      rw [here] at steps
      cases there : lastStep other pointer caseSensitive with
      | none =>
          rw [there] at steps
          cases steps
      | some otherStep =>
          rw [there] at steps
          rcases step with ⟨path, node, name⟩
          rcases otherStep with ⟨place, last, token⟩
          cases steps with
          | some both =>
              rcases both with ⟨rfl, counterparts⟩
              have taken := @detachChild_rel caseSensitive _ _ token counterparts.pair
                (distinct.at? counterparts.here)
                (byName _ _ _ here) (otherByName _ _ _ there)
              rw [Option.bind_some, Option.bind_some]
              refine rel_bind taken fun first second alike => ?_
              rcases counterparts.change _ _ alike.2 with ⟨changed, otherChanged, modified, otherModified, related⟩
              rw [modified, otherModified]
              exact .some ⟨alike.1, related⟩

/-- Putting two counterparts behind the others. -/
theorem addItemToArray_rel {item last : Item} (same : Rearranged object other) (known : object.KnowsTail)
    (otherKnown : other.KnowsTail) (pair : Rearranged item last) :
    Option.Rel Rearranged (addItemToArray object item) (addItemToArray other last) := by
  rw [addItemToArray_of_last known, addItemToArray_of_last otherKnown]
  exact .some (same.exchange (same.matched.concat pair))

theorem insertItemInArray_rel {item last : Item} (which : Nat) (same : Rearranged object other)
    (steady : object.Steady caseSensitive) (otherSteady : other.Steady caseSensitive)
    (notObject : object.isObject = false) (pair : Rearranged item last) :
    Option.Rel (fun inserted otherInserted => otherInserted.1 = inserted.1 ∧ Rearranged inserted.2 otherInserted.2)
      (insertItemInArray object which item) (insertItemInArray other which last) := by
  rw [insertItemInArray, insertItemInArray, same.matched.length_eq]
  by_cases past : object.child.length < which
  · rw [if_pos past, if_pos past]
    exact .some ⟨rfl, same⟩
  rw [if_neg past, if_neg past]
  by_cases behind : which = object.child.length
  · rw [if_pos behind, if_pos behind, addItemToArray_of_last (steady.tail notObject),
      addItemToArray_of_last (otherSteady.tail (same.isObject.trans notObject))]
    exact .some ⟨rfl, same.exchange (same.matched.concat pair)⟩
  · rw [if_neg behind, if_neg behind]
    exact .some ⟨rfl, same.exchange (.of_forall₂ (forall₂_insertIdx (same.matched.pairs notObject) pair which))⟩

/-- The members that are left when one of a name is deleted. -/
theorem cjsonDeleteItemFromObject_rel {name : Bytes} (same : Rearranged object other)
    (distinct : DistinctNamesIn caseSensitive object.child) :
    Rearranged (cjsonDeleteItemFromObject object name caseSensitive)
      (cjsonDeleteItemFromObject other name caseSensitive) := by
  have found := @Matched.find _ _ _ _ _ _ _ same.matched (nameIn caseSensitive) distinct.2
    (fun member => decide (member.nameIn caseSensitive = foldName caseSensitive name))
    (fun member => decide (member.nameIn caseSensitive = foldName caseSensitive name))
    (fun item last related => by rw [related.nameIn])
    (fun first _ second _ here there => (of_decide_eq_true here).trans (of_decide_eq_true there).symm)
  rw [← getObjectItem_eq_findIdx distinct.1, ← getObjectItem_eq_findIdx (same.distinctNames distinct).1] at found
  rw [cjsonDeleteItemFromObject, cjsonDeleteItemFromObject]
  generalize getObjectItem object name caseSensitive = here at found ⊢
  generalize getObjectItem other name caseSensitive = there at found ⊢
  cases found with
  | none => exact same
  | some both =>
      rcases both with ⟨item, last, partners, _⟩
      simp only [cjsonDetachItemViaPointer, partners.here, partners.there]
      exact same.exchange partners.rest

/-- Two results with one status, whose documents are rearrangements of each other. -/
def PutAlike (put otherPut : Nat × Item) : Prop := otherPut.1 = put.1 ∧ Rearranged put.2 otherPut.2

theorem putChild_rel {name : Bytes} {value last : Item} (same : Rearranged object other)
    (steady : object.Steady caseSensitive) (otherSteady : other.Steady caseSensitive) (pair : Rearranged value last)
    (known : object.isObject = true -> (cjsonDeleteItemFromObject object name caseSensitive).KnowsTail)
    (otherKnown : other.isObject = true -> (cjsonDeleteItemFromObject other name caseSensitive).KnowsTail) :
    Option.Rel PutAlike (putChild object name value caseSensitive) (putChild other name last caseSensitive) := by
  rw [putChild, putChild, same.isArray, same.isObject]
  by_cases array : object.isArray = true
  · have notObject := not_isObject_eq_false array
    rw [if_pos array, if_pos array]
    by_cases atEnd : compareBy id name [45] = 0
    · rw [if_pos atEnd, if_pos atEnd]
      have added := addItemToArray_rel same (steady.tail notObject)
        (otherSteady.tail (same.isObject.trans notObject)) pair
      rw [Option.map_eq_bind, Option.map_eq_bind]
      exact rel_bind added fun _ _ related => .some ⟨rfl, related⟩
    rw [if_neg atEnd, if_neg atEnd]
    cases decodeArrayIndexFromPointer name with
    | none => exact .some ⟨rfl, same⟩
    | some index =>
        have inserted := insertItemInArray_rel index same steady otherSteady notObject pair
        simp only [Option.map_eq_bind]
        refine rel_bind inserted fun first second alike => .some ⟨?_, alike.2⟩
        show (if second.1 = true then 0 else 10) = if first.1 = true then 0 else 10
        rw [alike.1]
  · rw [if_neg array, if_neg array]
    by_cases isObject : object.isObject = true
    · rw [if_pos isObject, if_pos isObject]
      have rests := @cjsonDeleteItemFromObject_rel caseSensitive _ _ name same (steady.distinct.names isObject)
      have renamed : Rearranged (namedItem name value) (namedItem name last) := by
        rw [namedItem, namedItem, pair.fields]
        exact pair.withFields rfl
      have added := addItemToArray_rel rests (known isObject) (otherKnown (same.isObject.trans isObject)) renamed
      rw [Option.map_eq_bind, Option.map_eq_bind]
      exact rel_bind added fun _ _ related => .some ⟨rfl, related⟩
    · rw [if_neg isObject, if_neg isObject]
      exact .some ⟨rfl, same⟩

theorem addToPath_rel {path : Bytes} {value last : Item} (same : Rearranged object other)
    (steady : object.Steady caseSensitive) (otherSteady : other.Steady caseSensitive) (pair : Rearranged value last)
    (known : PutsBehind caseSensitive object path) (otherKnown : PutsBehind caseSensitive other path) :
    Option.Rel PutAlike (addToPath object path value caseSensitive) (addToPath other path last caseSensitive) := by
  have steps := @lastStep_rel caseSensitive _ _ path same steady.distinct
  rw [addToPath_eq, addToPath_eq]
  cases here : lastStep object path caseSensitive with
  | none =>
      rw [here] at steps
      generalize lastStep other path caseSensitive = step at steps
      cases steps
      exact .some ⟨rfl, same⟩
  | some step =>
      rw [here] at steps
      cases there : lastStep other path caseSensitive with
      | none =>
          rw [there] at steps
          cases steps
      | some otherStep =>
          rw [there] at steps
          rcases step with ⟨way, node, name⟩
          rcases otherStep with ⟨place, final, token⟩
          cases steps with
          | some both =>
              rcases both with ⟨rfl, counterparts⟩
              have put := @putChild_rel caseSensitive _ _ token _ _ counterparts.pair (steady.at? counterparts.here)
                (otherSteady.at? counterparts.there) pair (known _ _ _ here) (otherKnown _ _ _ there)
              simp only
              refine rel_bind put fun first second alike => ?_
              rcases counterparts.change _ _ alike.2 with ⟨changed, otherChanged, modified, otherModified, related⟩
              rw [modified, otherModified]
              exact .some ⟨alike.1, related⟩

end Steps

/-! ## One patch -/

/-- A text that the patch gives under a name. -/
def textOf (patch : Item) (name : Bytes) (caseSensitive : Bool) : Option Bytes :=
  (getMember patch name caseSensitive).bind fun member => member.fields.valuestring

/-- The patch adds nothing with two members of one name, finds what it takes out by
its name, and puts a member only into an object that knows its tail.  These are the
three ways in which the order that a passing test leaves behind could be noticed later
on; a move and a replacement are asked about the document without what they have taken
out. -/
def Harmless (caseSensitive : Bool) (object patch : Item) : Prop :=
  AddsDistinct caseSensitive patch ∧
  ∀ operation path, decodePatchOperation patch caseSensitive = some operation ->
    textOf patch pathName caseSensitive = some path ->
      match operation with
      | .add | .copy => PutsBehind caseSensitive object path
      | .remove => TakesByName caseSensitive object path
      | .replace => TakesByName caseSensitive object path ∧
          ∀ taken, detachPath object path caseSensitive = some taken -> PutsBehind caseSensitive taken.2.2 path
      | .move => ∀ pointer, textOf patch fromName caseSensitive = some pointer ->
          TakesByName caseSensitive object pointer ∧
          ∀ taken, detachPath object pointer caseSensitive = some taken -> PutsBehind caseSensitive taken.2.2 path
      | _ => True

section Patches

variable {caseSensitive : Bool} {object other patch : Item} {path : Bytes}

/-- The same status and the same patch, and documents that are rearrangements of each
other.  This is what one step of two runs keeps, when a test has sorted the document
of the one and not that of the other. -/
structure PatchedAlike (first second : Patched) : Prop where
  status : second.status = first.status
  object : Rearranged first.object second.object
  patch : second.patch = first.patch

theorem testPatch_rel {pointer : Option Bytes} (same : Rearranged object other)
    (distinct : object.DistinctKeysIn caseSensitive) :
    Option.Rel PatchedAlike (testPatch object patch pointer caseSensitive)
      (testPatch other patch pointer caseSensitive) := by
  have walks : Option.Rel (fun way place => ∃ node last, Counterparts object other way place node last)
      (pointer.bind fun pointer => getItemFromPointer object pointer caseSensitive)
      (pointer.bind fun pointer => getItemFromPointer other pointer caseSensitive) := by
    cases pointer with
    | none => exact .none
    | some pointer => exact getItemFromPointer_rel pointer same distinct
  rw [testPatch, testPatch]
  generalize (pointer.bind fun pointer => getItemFromPointer object pointer caseSensitive) = here at walks ⊢
  generalize (pointer.bind fun pointer => getItemFromPointer other pointer caseSensitive) = there at walks ⊢
  generalize getObjectItem patch valueName caseSensitive = position
  cases walks with
  | none => exact .some ⟨rfl, same, rfl⟩
  | @some way place both =>
      rcases both with ⟨node, last, counterparts⟩
      simp only [Option.bind_some, counterparts.here, counterparts.there]
      cases position.bind fun position => patch.child[position]? with
      | none => exact .some ⟨rfl, same, rfl⟩
      | some value =>
          have nodeDistinct := distinct.at? counterparts.here
          have height := (counterparts.pair.tidied nodeDistinct).height
          have compared := @compareJson_rel caseSensitive (node.height + 1) _ _ value counterparts.pair nodeDistinct
          simp only [height, Option.bind_eq_bind]
          refine rel_bind compared fun first second alike => ?_
          rcases counterparts.change _ _ alike.left with ⟨changed, otherChanged, modified, otherModified, related⟩
          rw [Option.getD_some, Option.getD_some, modified, otherModified]
          refine .some ⟨?_, related, ?_⟩
          · show (if second.equal = true then 0 else 1) = if first.equal = true then 0 else 1
            rw [alike.equal]
          · show patch.withChildren (patch.child.set (position.getD 0) second.b) patch.headPrev =
              patch.withChildren (patch.child.set (position.getD 0) first.b) patch.headPrev
            rw [alike.right]

/-- What a put comes to. -/
theorem patchedAlike_of_put {put otherPut : Nat × Item} (alike : PutAlike put otherPut) :
    PatchedAlike ⟨put.1, put.2, patch⟩ ⟨otherPut.1, otherPut.2, patch⟩ :=
  ⟨alike.1, alike.2, rfl⟩

theorem addValue_rel (same : Rearranged object other) (steady : object.Steady caseSensitive)
    (otherSteady : other.Steady caseSensitive) (known : PutsBehind caseSensitive object path)
    (otherKnown : PutsBehind caseSensitive other path) :
    Option.Rel PatchedAlike (addValue object patch path caseSensitive) (addValue other patch path caseSensitive) := by
  rw [addValue, addValue]
  cases getMember patch valueName caseSensitive with
  | none => exact .some ⟨rfl, same, rfl⟩
  | some value =>
      simp only
      cases cjsonDuplicate value with
      | none => exact .some ⟨rfl, same, rfl⟩
      | some copy =>
          have added := addToPath_rel same steady otherSteady (.refl copy) known otherKnown
          exact rel_bind added fun _ _ alike => .some (patchedAlike_of_put alike)

/-- Both detach nothing, or both detach the same and keep what is steady.  This is the
case split that every operation with a source begins with. -/
theorem detachPath_cases {pointer : Bytes} (same : Rearranged object other) (steady : object.Steady caseSensitive)
    (otherSteady : other.Steady caseSensitive) (byName : TakesByName caseSensitive object pointer)
    (otherByName : TakesByName caseSensitive other pointer) :
    detachPath object pointer caseSensitive = none ∧ detachPath other pointer caseSensitive = none ∨
      ∃ taken otherTaken, detachPath object pointer caseSensitive = some taken ∧
        detachPath other pointer caseSensitive = some otherTaken ∧ TakenAlike taken otherTaken ∧
        taken.2.2.Steady caseSensitive ∧ otherTaken.2.2.Steady caseSensitive := by
  rcases rel_cases (detachPath_rel same steady.distinct byName otherByName) with
    missing | ⟨taken, otherTaken, here, there, alike⟩
  · exact Or.inl missing
  · exact Or.inr ⟨taken, otherTaken, here, there, alike, (steady_detachPath steady here).2,
      (steady_detachPath otherSteady there).2⟩

theorem move_rel (same : Rearranged object other) (steady : object.Steady caseSensitive)
    (otherSteady : other.Steady caseSensitive) (decoded : decodePatchOperation patch caseSensitive = some .move)
    (given : textOf patch pathName caseSensitive = some path) (harmless : Harmless caseSensitive object patch)
    (otherHarmless : Harmless caseSensitive other patch) :
    Option.Rel PatchedAlike (transferValue object patch .move path caseSensitive)
      (transferValue other patch .move path caseSensitive) := by
  have conditions := harmless.2 _ _ decoded given
  have otherConditions := otherHarmless.2 _ _ decoded given
  rw [transferValue, transferValue]
  cases source : getMember patch fromName caseSensitive with
  | none => exact .some ⟨rfl, same, rfl⟩
  | some member =>
      simp only
      by_cases notString : (!member.isString) = true
      · rw [if_pos notString, if_pos notString]
        exact .some ⟨rfl, same, rfl⟩
      rw [if_neg notString, if_neg notString, if_pos trivial, if_pos trivial]
      cases stored : member.fields.valuestring with
      | none => exact .none
      | some pointer =>
          have isFrom : textOf patch fromName caseSensitive = some pointer := by
            rw [textOf, source]
            exact stored
          rcases conditions pointer isFrom with ⟨byName, known⟩
          rcases otherConditions pointer isFrom with ⟨otherByName, otherKnown⟩
          rcases detachPath_cases same steady otherSteady byName otherByName with
            ⟨missing, otherMissing⟩ | ⟨taken, otherTaken, here, there, alike, rest, otherRest⟩
          · simp only [missing, otherMissing]
            exact .some ⟨rfl, same, rfl⟩
          · simp only [here, there]
            have added := addToPath_rel alike.2 rest otherRest alike.1 (known _ here) (otherKnown _ there)
            exact rel_bind added fun _ _ put => .some (patchedAlike_of_put put)

theorem copy_rel (same : Rearranged object other) (steady : object.Steady caseSensitive)
    (otherSteady : other.Steady caseSensitive) (known : PutsBehind caseSensitive object path)
    (otherKnown : PutsBehind caseSensitive other path) :
    Option.Rel PatchedAlike (transferValue object patch .copy path caseSensitive)
      (transferValue other patch .copy path caseSensitive) := by
  rw [transferValue, transferValue]
  cases getMember patch fromName caseSensitive with
  | none => exact .some ⟨rfl, same, rfl⟩
  | some member =>
      simp only
      by_cases notString : (!member.isString) = true
      · rw [if_pos notString, if_pos notString]
        exact .some ⟨rfl, same, rfl⟩
      rw [if_neg notString, if_neg notString, if_neg (by decide), if_neg (by decide)]
      have walks : Option.Rel (fun way place => ∃ node last, Counterparts object other way place node last)
          (member.fields.valuestring.bind fun pointer => getItemFromPointer object pointer caseSensitive)
          (member.fields.valuestring.bind fun pointer => getItemFromPointer other pointer caseSensitive) := by
        cases member.fields.valuestring with
        | none => exact .none
        | some pointer => exact getItemFromPointer_rel pointer same steady.distinct
      rcases rel_cases walks with ⟨missing, otherMissing⟩ | ⟨way, place, here, there, node, last, counterparts⟩
      · simp only [missing, otherMissing, Option.bind_none]
        exact .some ⟨rfl, same, rfl⟩
      · simp only [here, there, Option.bind_some, counterparts.here, counterparts.there]
        have nodeDistinct := steady.distinct.at? counterparts.here
        rcases rel_cases (cjsonDuplicate_rel counterparts.pair nodeDistinct) with
          ⟨tooDeep, otherTooDeep⟩ | ⟨copy, otherCopy, copied, otherCopied, pair⟩
        · simp only [tooDeep, otherTooDeep]
          exact .some ⟨rfl, same, rfl⟩
        · simp only [copied, otherCopied]
          have added := addToPath_rel same steady otherSteady pair known otherKnown
          exact rel_bind added fun _ _ put => .some (patchedAlike_of_put put)

theorem overwriteRoot_rel (operation : PatchOperation) (same : Rearranged object other) :
    PatchedAlike (overwriteRoot object patch operation caseSensitive)
      (overwriteRoot other patch operation caseSensitive) := by
  rw [overwriteRoot, overwriteRoot]
  by_cases isRemove : operation = .remove
  · rw [if_pos isRemove, if_pos isRemove]
    exact ⟨rfl, .refl _, rfl⟩
  rw [if_neg isRemove, if_neg isRemove]
  cases getMember patch valueName caseSensitive with
  | none => exact ⟨rfl, same, rfl⟩
  | some value =>
      simp only
      cases cjsonDuplicate value with
      | none => exact ⟨rfl, same, rfl⟩
      | some copy => exact ⟨rfl, .refl _, rfl⟩

/-- A patch does to two documents that differ in the order of members the same: one
status, and results that again differ in nothing but this order.  The patch must be
harmless for both, which rules out the lookups that ignore case and find another
member. -/
theorem applyPatch_rel (same : Rearranged object other) (steady : object.Steady caseSensitive)
    (otherSteady : other.Steady caseSensitive) (harmless : Harmless caseSensitive object patch)
    (otherHarmless : Harmless caseSensitive other patch) :
    Option.Rel PatchedAlike (applyPatch object patch caseSensitive) (applyPatch other patch caseSensitive) := by
  rw [applyPatch, applyPatch]
  cases given : getMember patch pathName caseSensitive with
  | none => exact .some ⟨rfl, same, rfl⟩
  | some pathItem =>
      simp only
      by_cases notString : (!pathItem.isString) = true
      · rw [if_pos notString, if_pos notString]
        exact .some ⟨rfl, same, rfl⟩
      rw [if_neg notString, if_neg notString]
      cases decoded : decodePatchOperation patch caseSensitive with
      | none => exact .none
      | some operation =>
          have elsewhere (atPath : ∀ path, textOf patch pathName caseSensitive = some path ->
                Option.Rel PatchedAlike (applyAtPath object patch operation path caseSensitive)
                  (applyAtPath other patch operation path caseSensitive)) :
              Option.Rel PatchedAlike
                (pathItem.fields.valuestring.bind fun pointer =>
                  if first pointer = 0 ∧ operation ≠ .move ∧ operation ≠ .copy then
                    some (overwriteRoot object patch operation caseSensitive)
                  else applyAtPath object patch operation pointer caseSensitive)
                (pathItem.fields.valuestring.bind fun pointer =>
                  if first pointer = 0 ∧ operation ≠ .move ∧ operation ≠ .copy then
                    some (overwriteRoot other patch operation caseSensitive)
                  else applyAtPath other patch operation pointer caseSensitive) := by
            cases stored : pathItem.fields.valuestring with
            | none => exact .none
            | some path =>
                rw [Option.bind_some, Option.bind_some]
                by_cases root : first path = 0 ∧ operation ≠ .move ∧ operation ≠ .copy
                · rw [if_pos root, if_pos root]
                  exact .some (overwriteRoot_rel operation same)
                · rw [if_neg root, if_neg root]
                  apply atPath
                  rw [textOf, given]
                  exact stored
          have conditions := fun path isPath => harmless.2 operation path decoded isPath
          have otherConditions := fun path isPath => otherHarmless.2 operation path decoded isPath
          cases operation with
          | invalid => exact .some ⟨rfl, same, rfl⟩
          | test => exact testPatch_rel same steady.distinct
          | add =>
              exact elsewhere fun path isPath =>
                addValue_rel same steady otherSteady (conditions path isPath) (otherConditions path isPath)
          | copy =>
              exact elsewhere fun path isPath =>
                copy_rel same steady otherSteady (conditions path isPath) (otherConditions path isPath)
          | move =>
              exact elsewhere fun path isPath =>
                move_rel same steady otherSteady decoded isPath harmless otherHarmless
          | remove =>
              apply elsewhere
              intro path isPath
              simp only [applyAtPath]
              rcases detachPath_cases same steady otherSteady (conditions path isPath)
                (otherConditions path isPath) with
                ⟨missing, otherMissing⟩ | ⟨taken, otherTaken, here, there, alike, _⟩
              · simp only [missing, otherMissing]
                exact .some ⟨rfl, same, rfl⟩
              · simp only [here, there]
                exact .some ⟨rfl, alike.2, rfl⟩
          | replace =>
              apply elsewhere
              intro path isPath
              rcases conditions path isPath with ⟨byName, known⟩
              rcases otherConditions path isPath with ⟨otherByName, otherKnown⟩
              simp only [applyAtPath]
              rcases detachPath_cases same steady otherSteady byName otherByName with
                ⟨missing, otherMissing⟩ | ⟨taken, otherTaken, here, there, alike, rest, otherRest⟩
              · simp only [missing, otherMissing]
                exact .some ⟨rfl, same, rfl⟩
              · simp only [here, there]
                exact addValue_rel alike.2 rest otherRest (known _ here) (otherKnown _ there)

end Patches

end CJson
