import CJson.Counterparts
import CJson.Rewrites

/-!
# What no patch breaks

The names in an object stay different, and the list of an array keeps its tail, whatever
patches are applied.  Of the list of an object that cannot be said: the sort behind
a test leaves the `prev` of its first member as it comes.
-/

namespace CJson

open CString Item Matching

/-- The names in every object are different in a mode, and every other list knows its
tail.  Objects need not know theirs, because sorting takes it from them; that is all
that a run of patches can rely on. -/
inductive Item.Steady (caseSensitive : Bool) : Item -> Prop where
  | mk {fields : Fields} {child : List Item} {headPrev : HeadPrev}
      (names : fields.type_.base = .object -> DistinctNamesIn caseSensitive child)
      (tail : fields.type_.base ≠ .object -> (Item.mk fields child headPrev).KnowsTail)
      (below : ∀ item ∈ child, Steady caseSensitive item) : Steady caseSensitive (.mk fields child headPrev)

section Trees

variable {caseSensitive : Bool} {item : Item}

namespace Item.Steady

theorem distinct (steady : item.Steady caseSensitive) : item.DistinctKeysIn caseSensitive := by
  induction item using Item.induct with
  | node fields child headPrev ih =>
      cases steady with
      | mk names _ below => exact .mk names fun next member => ih next member (below next member)

theorem child {next : Item} (steady : item.Steady caseSensitive) (member : next ∈ item.child) :
    next.Steady caseSensitive := by
  cases steady with
  | mk _ _ below => exact below next member

theorem tail (steady : item.Steady caseSensitive) (notObject : item.isObject = false) : item.KnowsTail := by
  cases steady with
  | mk _ tail _ => exact tail (beq_eq_false_iff_ne.mp notObject)

/-- Exchanging the child list: names must differ in an object, and an array must know
its last element. -/
theorem withChildren {children : List Item} {headPrev : HeadPrev}
    (names : item.isObject = true -> DistinctNamesIn caseSensitive children)
    (tail : item.isObject = false -> (item.withChildren children headPrev).KnowsTail)
    (below : ∀ next ∈ children, next.Steady caseSensitive) :
    (item.withChildren children headPrev).Steady caseSensitive := by
  cases item with
  | mk fields child headPrev =>
      exact .mk (fun object => names (beq_iff_eq.mpr object))
        (fun notObject => tail (beq_eq_false_iff_ne.mpr notObject)) below

theorem withFields {fields : Fields} (steady : item.Steady caseSensitive)
    (base : fields.type_.base = item.base) : (item.withFields fields).Steady caseSensitive := by
  cases item with
  | mk old child headPrev =>
      rw [base_mk] at base
      cases steady with
      | mk names tail below =>
          exact .mk (fun object => names (base ▸ object)) (fun notObject => tail (base ▸ notObject)) below

theorem of_wellFormed (wellFormed : item.WellFormed caseSensitive) : item.Steady caseSensitive := by
  induction item using Item.induct with
  | node fields child headPrev ih =>
      refine .mk (fun object => wellFormed.distinct.names (beq_iff_eq.mpr object))
        (fun _ => wellFormed.linked.headPrev) ?_
      exact fun next member => ih next member (wellFormed.child member)

theorem at? {node : Item} {place : Item.Path} (steady : item.Steady caseSensitive)
    (found : item.at? place = some node) : node.Steady caseSensitive := by
  induction place generalizing item with
  | nil =>
      cases found
      exact steady
  | cons position place ih =>
      cases there : item.child[position]? with
      | none => simp [Item.at?, there] at found
      | some next =>
          simp only [Item.at?, there] at found
          exact ih (steady.child (List.mem_of_getElem? there)) found

/-- Another child of the same name in the place of a child, whatever is below it. -/
theorem set {next new : Item} {position : Nat} (steady : item.Steady caseSensitive)
    (there : item.child[position]? = some next) (same : new.string = next.string)
    (newSteady : new.Steady caseSensitive) :
    (item.withChildren (item.child.set position new) item.headPrev).Steady caseSensitive := by
  apply withChildren
  · intro object
    apply distinctNamesIn_of_strings _ (steady.distinct.names object)
    exact map_set_of_eq _ there same
  · intro notObject _
    rw [withChildren_child, List.length_set]
    exact steady.tail notObject (List.ne_nil_of_mem (List.mem_of_getElem? there))
  · intro child member
    rcases List.mem_or_eq_of_mem_set member with old | rfl
    · exact steady.child old
    · exact newSteady

/-- A node of the same name in the place of a node deep in the tree. -/
theorem modify {node new changed : Item} {place : Item.Path} (steady : item.Steady caseSensitive)
    (found : item.at? place = some node) (same : new.string = node.string) (newSteady : new.Steady caseSensitive)
    (modified : item.modify (fun _ => some new) place = some changed) :
    changed.Steady caseSensitive ∧ changed.string = item.string := by
  induction place generalizing item changed with
  | nil =>
      cases found
      cases modified
      exact ⟨newSteady, same⟩
  | cons position place ih =>
      cases there : item.child[position]? with
      | none => simp [Item.at?, there] at found
      | some next =>
          simp only [Item.at?, there] at found
          simp only [Item.modify, there] at modified
          rcases Option.map_eq_some_iff.mp modified with ⟨below, belowModified, rfl⟩
          rcases ih (steady.child (List.mem_of_getElem? there)) found belowModified with ⟨belowSteady, belowSame⟩
          exact ⟨steady.set there belowSame belowSteady, rfl⟩

end Item.Steady

theorem steady_of_copied {copy : Item} (copied : cjsonDuplicate item = some copy)
    (distinct : item.DistinctKeysIn caseSensitive) : copy.Steady caseSensitive := by
  rcases @duplicateRec_eq caseSensitive item 0 (height_le_of_copied copied) distinct with ⟨other, made, isCopy⟩
  cases copied.symm.trans made
  exact .of_wellFormed isCopy.wellFormed

end Trees

/-! ## Lists -/

section Lists

variable {caseSensitive : Bool} {parent item : Item}

theorem steady_detached {remaining : Item} {position : Nat} (steady : parent.Steady caseSensitive)
    (detached : cjsonDetachItemViaPointer parent position = some (item, remaining)) :
    item.Steady caseSensitive ∧ remaining.Steady caseSensitive ∧ remaining.fields = parent.fields := by
  have known := fun notObject => knowsTail_detached (steady.tail notObject) detached
  rcases cjsonDetachItemViaPointer_eq detached with ⟨there, headPrev, rfl⟩
  refine ⟨steady.child (List.mem_of_getElem? there), .withChildren ?_ known ?_, rfl⟩
  · intro object
    have names := steady.distinct.names object
    refine ⟨fun member inside => names.1 member (List.mem_of_mem_eraseIdx inside), ?_⟩
    exact (List.Sublist.map _ (List.eraseIdx_sublist _ _)).nodup names.2
  · exact fun child inside => steady.child (List.mem_of_mem_eraseIdx inside)

/-- Wherever the tail seems to be, what is left of the list is a part of it with the new node behind. -/
theorem addItemToArray_sublist {changed : Item} (added : addItemToArray parent item = some changed) :
    ∃ children headPrev, changed = parent.withChildren children headPrev ∧
      children.Sublist (parent.child ++ [item]) := by
  rw [addItemToArray] at added
  cases children : parent.child with
  | nil =>
      rw [children] at added
      cases added
      exact ⟨_, _, rfl, List.Sublist.refl _⟩
  | cons first rest =>
      rw [children] at added
      cases headPrev : parent.headPrev with
      | null =>
          rw [headPrev] at added
          cases added
          refine ⟨parent.child, parent.headPrev, (eta parent).symm, ?_⟩
          rw [← children]
          exact List.sublist_append_left _ _
      | «at» target =>
          rw [headPrev] at added
          cases added
          exact ⟨_, _, rfl, (List.take_sublist _ _).append_right _⟩
      | stray =>
          rw [headPrev] at added
          cases added

theorem steady_added {changed : Item} (steady : parent.Steady caseSensitive) (itemSteady : item.Steady caseSensitive)
    (names : parent.isObject = true -> DistinctNamesIn caseSensitive (parent.child ++ [item]))
    (added : addItemToArray parent item = some changed) :
    changed.Steady caseSensitive ∧ changed.fields = parent.fields := by
  rcases addItemToArray_sublist added with ⟨children, headPrev, isChanged, sublist⟩
  subst isChanged
  refine ⟨.withChildren (fun object => ?_) (fun notObject => ?_) (fun child inside => ?_), rfl⟩
  · refine ⟨fun member inside => (names object).1 member (sublist.subset inside), ?_⟩
    exact (sublist.map _).nodup (names object).2
  · rw [addItemToArray_of_last (steady.tail notObject)] at added
    rw [← Option.some_inj.mp added]
    intro _
    rw [withChildren_child, withChildren_headPrev, List.length_append, List.length_singleton, Nat.add_sub_cancel]
  · rcases List.mem_append.mp (sublist.subset inside) with old | new
    · exact steady.child old
    · exact List.mem_singleton.mp new ▸ itemSteady

theorem steady_inserted {changed : Item} {which : Nat} {inserted : Bool} (steady : parent.Steady caseSensitive)
    (itemSteady : item.Steady caseSensitive) (notObject : parent.isObject = false)
    (ran : insertItemInArray parent which item = some (inserted, changed)) :
    changed.Steady caseSensitive ∧ changed.fields = parent.fields := by
  rw [insertItemInArray] at ran
  by_cases past : parent.child.length < which
  · rw [if_pos past] at ran
    cases ran
    exact ⟨steady, rfl⟩
  rw [if_neg past] at ran
  by_cases last : which = parent.child.length
  · rw [if_pos last] at ran
    rcases Option.map_eq_some_iff.mp ran with ⟨result, added, same⟩
    cases same
    exact steady_added steady itemSteady (fun object => absurd (notObject.symm.trans object) Bool.false_ne_true) added
  · rw [if_neg last] at ran
    cases ran
    have nonempty : parent.child ≠ [] := by
      intro empty
      rw [empty, List.length_nil] at past last
      omega
    refine ⟨.withChildren (fun object => ?_) (fun _ _ => ?_) (fun child inside => ?_), rfl⟩
    · exact absurd (notObject.symm.trans object) Bool.false_ne_true
    · rw [withChildren_child, withChildren_headPrev, steady.tail notObject nonempty, HeadPrev.afterInsertion,
        if_pos (by omega), List.length_insertIdx_of_le_length (by omega)]
      congr 1
      omega
    · rcases (List.mem_insertIdx (by omega)).mp inside with rfl | old
      · exact itemSteady
      · exact steady.child old

/-- A member that is deleted leaves no other one of its name behind, because names
differ. -/
theorem steady_deleted {name : Bytes} (steady : parent.Steady caseSensitive) (isObject : parent.isObject = true) :
    (cjsonDeleteItemFromObject parent name caseSensitive).Steady caseSensitive ∧
      (cjsonDeleteItemFromObject parent name caseSensitive).fields = parent.fields ∧
      foldName caseSensitive name ∉
        (cjsonDeleteItemFromObject parent name caseSensitive).child.map (nameIn caseSensitive) := by
  have names := steady.distinct.names isObject
  rw [cjsonDeleteItemFromObject]
  cases found : getObjectItem parent name caseSensitive with
  | none => exact ⟨steady, rfl, getObjectItem_eq_none names found⟩
  | some position =>
      rcases getObjectItem_eq_some names found with ⟨member, there, named⟩
      rcases cjsonDetachItemViaPointer_eq_some there with ⟨remaining, detached⟩
      rcases steady_detached steady detached with ⟨_, remains, fields⟩
      simp only [detached]
      refine ⟨remains, fields, ?_⟩
      rcases cjsonDetachItemViaPointer_eq detached with ⟨_, headPrev, rfl⟩
      rcases List.getElem?_eq_some_iff.mp there with ⟨bound, isMember⟩
      have apart : ((parent.child[position] :: parent.child.eraseIdx position).map (nameIn caseSensitive)).Nodup :=
        ((List.getElem_cons_eraseIdx_perm bound).map _).nodup_iff.mpr names.2
      rw [isMember, List.map_cons, List.nodup_cons, named] at apart
      exact apart.1

/-- A member of some name is put in, in the place of one of this name, and behind the
others. -/
theorem steady_put {name : Bytes} {changed : Item} (steady : parent.Steady caseSensitive)
    (isObject : parent.isObject = true) (itemSteady : item.Steady caseSensitive)
    (added : cjsonAddItemToObject (cjsonDeleteItemFromObject parent name caseSensitive) name item = some changed) :
    changed.Steady caseSensitive ∧ changed.fields = parent.fields := by
  rcases @steady_deleted _ _ name steady isObject with ⟨rest, fields, fresh⟩
  have restObject : (cjsonDeleteItemFromObject parent name caseSensitive).isObject = true := by
    rw [Item.isObject, Item.base, fields]
    exact isObject
  have names := rest.distinct.names restObject
  have renamed : (namedItem name item).Steady caseSensitive := itemSteady.withFields rfl
  have together : DistinctNamesIn caseSensitive
      ((cjsonDeleteItemFromObject parent name caseSensitive).child ++ [namedItem name item]) := by
    refine ⟨fun member inside => ?_, ?_⟩
    · rcases List.mem_append.mp inside with old | new
      · exact names.1 member old
      · rw [List.mem_singleton.mp new]
        rfl
    · rw [List.map_append, List.map_singleton, nameIn_namedItem, List.nodup_append]
      refine ⟨names.2, List.nodup_singleton _, fun first here second there same => ?_⟩
      rw [List.mem_singleton.mp there] at same
      exact fresh (same ▸ here)
  rcases steady_added rest renamed (fun _ => together) added with ⟨result, same⟩
  exact ⟨result, same.trans fields⟩

end Lists

/-! ## The comparison of a test -/

section Comparing

variable {caseSensitive mode : Bool}

/-- What every comparison of two children keeps, the walk along two lists keeps. -/
theorem compareChildren_keeps {kept : Item -> Prop} {names : Item -> Item -> Bool}
    {compare : Item -> Item -> Option (Compared Item)} {as bs : List Item} {result : Compared (List Item)}
    (keeps : ∀ a b compared, compare a b = some compared -> kept a -> kept compared.a)
    (all : ∀ a ∈ as, kept a) (ran : compareChildren names compare as bs = some result) :
    ∀ a ∈ result.a, kept a := by
  induction as generalizing bs result with
  | nil =>
      cases bs <;>
      · cases ran
        exact all
  | cons a as ih =>
      rw [List.forall_mem_cons] at all
      have unchanged := List.forall_mem_cons.mpr all
      cases bs with
      | nil =>
          cases ran
          exact unchanged
      | cons b bs =>
          rw [compareChildren] at ran
          split at ran
          · cases ran
            exact unchanged
          · rcases Option.bind_eq_some_iff.mp ran with ⟨head, compared, ran⟩
            have headKept := keeps a b head compared all.1
            split at ran
            · cases ran
              exact List.forall_mem_cons.mpr ⟨headKept, all.2⟩
            · rcases Option.bind_eq_some_iff.mp ran with ⟨rest, ranRest, ran⟩
              cases ran
              exact List.forall_mem_cons.mpr ⟨headKept, ih all.2 ranRest⟩

theorem compareJson_steady {fuel : Nat} {a b : Item} {compared : Compared Item} (steady : a.Steady caseSensitive)
    (ran : compareJson fuel a b mode = some compared) : compared.a.Steady caseSensitive := by
  have distinct := ((compareJson_rearranges ran).1.tidied steady.distinct).distinct
  induction fuel generalizing a b compared with
  | zero => cases ran
  | succ fuel ih =>
      have below : ∀ x y result, compareJson fuel x y mode = some result -> x.Steady caseSensitive ->
          result.a.Steady caseSensitive := fun x y result ran steady =>
        ih steady ran ((compareJson_rearranges ran).1.tidied steady.distinct).distinct
      have unchanged : ∀ equal, some (⟨equal, a, b⟩ : Compared Item) = some compared ->
          compared.a.Steady caseSensitive := by
        intro equal ran
        cases ran
        exact steady
      rw [compareJson] at ran
      by_cases sameBase : a.base = b.base
      · rw [if_neg (not_not.mpr sameBase)] at ran
        cases kind : a.base with
        | invalid => rw [kind] at ran; exact unchanged _ ran
        | raw => rw [kind] at ran; exact unchanged _ ran
        | null => rw [kind] at ran; exact unchanged _ ran
        | false => rw [kind] at ran; exact unchanged _ ran
        | true => rw [kind] at ran; exact unchanged _ ran
        | number => rw [kind] at ran; exact unchanged _ ran
        | string =>
            rw [kind] at ran
            rcases Option.bind_eq_some_iff.mp ran with ⟨order, _, ran⟩
            exact unchanged _ ran
        | array =>
            rw [kind] at ran
            rcases Option.bind_eq_some_iff.mp ran with ⟨lists, walked, ran⟩
            have kept := compareChildren_keeps below (fun _ => steady.child) walked
            have length := (compareChildren_rearranges walked fun _ _ _ => compareJson_rearranges).1.length_eq
            cases ran
            have notObject : a.isObject = false := by rw [Item.isObject, kind]; rfl
            refine .withChildren (fun object => absurd (notObject.symm.trans object) Bool.false_ne_true) ?_ kept
            intro _ nonempty
            rw [withChildren_child] at nonempty ⊢
            rw [← length]
            apply steady.tail notObject
            intro empty
            rw [empty, List.length_nil] at length
            exact nonempty (List.length_eq_zero_iff.mp length.symm)
        | object =>
            rw [kind] at ran
            rcases Option.bind_eq_some_iff.mp ran with ⟨lists, walked, ran⟩
            have sorted : ∀ next ∈ (sortObject a mode).child, next.Steady caseSensitive :=
              fun next inside => steady.child ((sortObject_child_perm a mode).mem_iff.mp inside)
            have kept := compareChildren_keeps below sorted walked
            have isObject : a.isObject = true := beq_iff_eq.mpr kind
            cases ran
            refine .withChildren (fun object => distinct.names object) ?_ kept
            exact fun notObject => absurd (notObject.symm.trans isObject) Bool.false_ne_true
      · rw [if_pos sameBase] at ran
        exact unchanged _ ran

end Comparing

/-! ## The operations -/

section Operations

variable {caseSensitive : Bool} {object item rest value result patch : Item} {path : Bytes}
  {place : Item.Path}

theorem not_isObject_eq_false (array : item.isArray = true) : item.isObject = false := by
  rw [← Bool.not_eq_true]
  exact not_isObject_of_isArray array

theorem steady_detachPath (steady : object.Steady caseSensitive)
    (detached : detachPath object path caseSensitive = some (place, item, rest)) :
    item.Steady caseSensitive ∧ rest.Steady caseSensitive := by
  rcases detachPath_eq_some detached with ⟨_, _, parentPath, parent, remaining, position, detaches⟩
  rcases steady_detached (steady.at? detaches.at?) detaches.removed with ⟨itemSteady, remains, fields⟩
  have same : remaining.string = parent.string := by rw [Item.string, Item.string, fields]
  exact ⟨itemSteady, (steady.modify detaches.at? same remains detaches.modified).1⟩

theorem steady_putChild {parent changed : Item} {name : Bytes} {status : Nat} (steady : parent.Steady caseSensitive)
    (valueSteady : value.Steady caseSensitive)
    (put : putChild parent name value caseSensitive = some (status, changed)) :
    changed.Steady caseSensitive ∧ changed.fields = parent.fields := by
  rw [putChild] at put
  by_cases array : parent.isArray = true
  · have notObject := not_isObject_eq_false array
    rw [if_pos array] at put
    split at put
    · rcases Option.map_eq_some_iff.mp put with ⟨result, added, same⟩
      cases same
      exact steady_added steady valueSteady
        (fun object => absurd (notObject.symm.trans object) Bool.false_ne_true) added
    · split at put
      · cases put
        exact ⟨steady, rfl⟩
      · rcases Option.map_eq_some_iff.mp put with ⟨⟨inserted, result⟩, insertion, same⟩
        cases same
        exact steady_inserted steady valueSteady notObject insertion
  · rw [if_neg array] at put
    by_cases isObject : parent.isObject = true
    · rw [if_pos isObject] at put
      rcases Option.map_eq_some_iff.mp put with ⟨result, added, same⟩
      cases same
      exact steady_put steady isObject valueSteady added
    · rw [if_neg isObject] at put
      cases put
      exact ⟨steady, rfl⟩

theorem steady_addToPath {status : Nat} (steady : object.Steady caseSensitive)
    (valueSteady : value.Steady caseSensitive)
    (ran : addToPath object path value caseSensitive = some (status, result)) : result.Steady caseSensitive := by
  rcases addToPath_eq_some ran with ⟨_, same⟩ | ⟨parentPath, parent, name, changed, there, put, modified⟩
  · exact same ▸ steady
  · rcases steady_putChild (steady.at? there) valueSteady put with ⟨changedSteady, fields⟩
    have same : changed.string = parent.string := by rw [Item.string, Item.string, fields]
    exact (steady.modify there same changedSteady modified).1

theorem steady_addValue {patched : Patched} (steady : object.Steady caseSensitive)
    (given : ∀ value, getMember patch valueName caseSensitive = some value -> value.DistinctKeysIn caseSensitive)
    (ran : addValue object patch path caseSensitive = some patched) : patched.object.Steady caseSensitive := by
  rw [addValue] at ran
  cases there : getMember patch valueName caseSensitive with
  | none =>
      simp only [there] at ran
      cases ran
      exact steady
  | some value =>
      simp only [there] at ran
      cases copied : cjsonDuplicate value with
      | none =>
          simp only [copied] at ran
          cases ran
          exact steady
      | some copy =>
          simp only [copied] at ran
          rcases Option.bind_eq_some_iff.mp ran with ⟨⟨status, result⟩, added, ran⟩
          cases ran
          exact steady_addToPath steady (steady_of_copied copied (given value there)) added

theorem steady_transferValue {operation : PatchOperation} {patched : Patched} (steady : object.Steady caseSensitive)
    (ran : transferValue object patch operation path caseSensitive = some patched) :
    patched.object.Steady caseSensitive := by
  rw [transferValue] at ran
  cases given : getMember patch fromName caseSensitive with
  | none =>
      simp only [given] at ran
      cases ran
      exact steady
  | some source =>
      simp only [given] at ran
      split at ran
      · cases ran
        exact steady
      · split at ran
        · cases stored : source.fields.valuestring with
          | none => simp [stored] at ran
          | some pointer =>
              simp only [stored] at ran
              cases detached : detachPath object pointer caseSensitive with
              | none =>
                  simp only [detached] at ran
                  cases ran
                  exact steady
              | some taken =>
                  rcases taken with ⟨place, item, rest⟩
                  simp only [detached] at ran
                  rcases Option.bind_eq_some_iff.mp ran with ⟨⟨status, result⟩, added, ran⟩
                  cases ran
                  rcases steady_detachPath steady detached with ⟨itemSteady, restSteady⟩
                  exact steady_addToPath restSteady itemSteady added
        · cases found : (source.fields.valuestring.bind fun pointer =>
              getItemFromPointer object pointer caseSensitive).bind object.at? with
          | none =>
              simp only [found] at ran
              cases ran
              exact steady
          | some node =>
              simp only [found] at ran
              cases copied : cjsonDuplicate node with
              | none =>
                  simp only [copied] at ran
                  cases ran
                  exact steady
              | some copy =>
                  simp only [copied] at ran
                  rcases Option.bind_eq_some_iff.mp ran with ⟨⟨status, result⟩, added, ran⟩
                  cases ran
                  rcases Option.bind_eq_some_iff.mp found with ⟨place, _, there⟩
                  exact steady_addToPath steady (steady_of_copied copied (steady.at? there).distinct) added

theorem steady_testPatch {pointer : Option Bytes} {patched : Patched} (steady : object.Steady caseSensitive)
    (ran : testPatch object patch pointer caseSensitive = some patched) : patched.object.Steady caseSensitive := by
  rw [testPatch] at ran
  cases walked : pointer.bind fun pointer => getItemFromPointer object pointer caseSensitive with
  | none =>
      simp only [walked, Option.bind_none] at ran
      cases ran
      exact steady
  | some place =>
      simp only [walked, Option.bind_some] at ran
      split at ran
      · rename_i node value found given
        rcases Option.bind_eq_some_iff.mp ran with ⟨compared, comparison, ran⟩
        rcases Option.bind_eq_some_iff.mp ran with ⟨changed, modified, ran⟩
        cases ran
        have same := (compareJson_rearranges comparison).1.string
        exact (steady.modify found same (compareJson_steady (steady.at? found) comparison) modified).1
      · cases ran
        exact steady

/-- What a patch adds from itself has different names in its objects. -/
def AddsDistinct (caseSensitive : Bool) (patch : Item) : Prop :=
  ∀ operation value, decodePatchOperation patch caseSensitive = some operation ->
    operation = .add ∨ operation = .replace -> getMember patch valueName caseSensitive = some value ->
      value.DistinctKeysIn caseSensitive

theorem steady_overwriteRoot {operation : PatchOperation} (steady : object.Steady caseSensitive)
    (given : operation ≠ .remove -> ∀ value, getMember patch valueName caseSensitive = some value ->
      value.DistinctKeysIn caseSensitive) :
    (overwriteRoot object patch operation caseSensitive).object.Steady caseSensitive := by
  rw [overwriteRoot]
  split
  · exact .mk (fun impossible => by cases impossible) (fun _ nonempty => absurd rfl nonempty)
      (fun _ impossible => by cases impossible)
  · rename_i notRemove
    cases there : getMember patch valueName caseSensitive with
    | none => exact steady
    | some value =>
        simp only
        cases copied : cjsonDuplicate value with
        | none => exact steady
        | some copy => exact (steady_of_copied copied (given notRemove value there)).withFields rfl

theorem steady_applyAtPath {operation : PatchOperation} {patched : Patched} (steady : object.Steady caseSensitive)
    (given : operation = .add ∨ operation = .replace ->
      ∀ value, getMember patch valueName caseSensitive = some value ->
      value.DistinctKeysIn caseSensitive)
    (ran : applyAtPath object patch operation path caseSensitive = some patched) :
    patched.object.Steady caseSensitive := by
  cases operation with
  | invalid => exact steady_transferValue steady ran
  | test => exact steady_transferValue steady ran
  | move => exact steady_transferValue steady ran
  | copy => exact steady_transferValue steady ran
  | add => exact steady_addValue steady (given (Or.inl rfl)) ran
  | remove =>
      simp only [applyAtPath] at ran
      cases detached : detachPath object path caseSensitive with
      | none =>
          simp only [detached] at ran
          cases ran
          exact steady
      | some taken =>
          rcases taken with ⟨place, item, rest⟩
          simp only [detached] at ran
          cases ran
          exact (steady_detachPath steady detached).2
  | replace =>
      simp only [applyAtPath] at ran
      cases detached : detachPath object path caseSensitive with
      | none =>
          simp only [detached] at ran
          cases ran
          exact steady
      | some taken =>
          rcases taken with ⟨place, item, rest⟩
          simp only [detached] at ran
          exact steady_addValue (steady_detachPath steady detached).2 (given (Or.inr rfl)) ran

/-- A patch keeps what is steady, whether it succeeds or not. -/
theorem applyPatch_steady {patched : Patched} (steady : object.Steady caseSensitive)
    (adds : AddsDistinct caseSensitive patch) (ran : applyPatch object patch caseSensitive = some patched) :
    patched.object.Steady caseSensitive := by
  rw [applyPatch] at ran
  cases given : getMember patch pathName caseSensitive with
  | none =>
      simp only [given] at ran
      cases ran
      exact steady
  | some pathItem =>
      simp only [given] at ran
      by_cases isString : pathItem.isString = true
      · rw [isString, Bool.not_true, if_neg Bool.false_ne_true] at ran
        rcases Option.bind_eq_some_iff.mp ran with ⟨operation, decoded, ran⟩
        have values := fun isAdd value => adds operation value decoded isAdd
        have elsewhere (ran : (do
              let pointer ← pathItem.fields.valuestring
              if first pointer = 0 ∧ operation ≠ .move ∧ operation ≠ .copy then
                some (overwriteRoot object patch operation caseSensitive)
              else applyAtPath object patch operation pointer caseSensitive) = some patched)
            (changes : operation ≠ .move -> operation ≠ .copy -> operation ≠ .remove ->
              operation = .add ∨ operation = .replace) : patched.object.Steady caseSensitive := by
          rcases Option.bind_eq_some_iff.mp ran with ⟨path, _, ran⟩
          by_cases root : first path = 0 ∧ operation ≠ .move ∧ operation ≠ .copy
          · rw [if_pos root] at ran
            cases ran
            exact steady_overwriteRoot steady fun notRemove => values (changes root.2.1 root.2.2 notRemove)
          · rw [if_neg root] at ran
            exact steady_applyAtPath steady values ran
        cases operation with
        | invalid =>
            cases ran
            exact steady
        | test => exact steady_testPatch steady ran
        | add => exact elsewhere ran (by decide)
        | remove => exact elsewhere ran (by decide)
        | replace => exact elsewhere ran (by decide)
        | move => exact elsewhere ran (by decide)
        | copy => exact elsewhere ran (by decide)
      · rw [Bool.not_eq_true] at isString
        rw [isString, Bool.not_false, if_pos rfl] at ran
        cases ran
        exact steady

/-- So does a run of patches, as long as the values that they add have different names
at every depth. -/
theorem applyPatchesLoop_steady {patches others : List Item} {status : Nat} (steady : object.Steady caseSensitive)
    (adds : ∀ patch ∈ patches, AddsDistinct caseSensitive patch)
    (ran : applyPatchesLoop object caseSensitive patches = some (status, result, others)) :
    result.Steady caseSensitive := by
  induction patches generalizing object others with
  | nil =>
      cases ran
      exact steady
  | cons patch patches ih =>
      rw [List.forall_mem_cons] at adds
      rw [applyPatchesLoop] at ran
      rcases Option.bind_eq_some_iff.mp ran with ⟨patched, step, ran⟩
      have next := applyPatch_steady steady adds.1 step
      split at ran
      · cases ran
        exact next
      · rcases Option.bind_eq_some_iff.mp ran with ⟨⟨after, object, rest⟩, loop, ran⟩
        cases ran
        exact ih next adds.2 loop

end Operations

end CJson
