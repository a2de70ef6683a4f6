import CJson.Unordered

/-!
# What the object functions do to the members

On a tree whose child lists are well linked and whose objects have different
names, looking a member up, taking it out and putting one in are the evaluation
and the update of the function from names to values that the object stands for.
-/

namespace CJson

open CString Item

/-- A name as the lookups of a mode see it. -/
def foldName (caseSensitive : Bool) (name : Bytes) : Bytes :=
  (text name).map (caseFold caseSensitive)

/-- What holds of the trees that the object functions are meant for: well linked
lists, and no two members that the lookups of the mode take for one. -/
structure Item.WellFormed (caseSensitive : Bool) (item : Item) : Prop where
  linked : item.WellLinked
  distinct : item.DistinctKeysIn caseSensitive

section Lists

variable {caseSensitive : Bool}

theorem Item.WellLinked.headPrev {item : Item} (linked : item.WellLinked) (nonempty : item.child ≠ []) :
    item.headPrev = .at (item.child.length - 1) := by
  cases linked with
  | mk here _ => exact here nonempty

theorem Item.WellFormed.child {item next : Item} (wellFormed : item.WellFormed caseSensitive)
    (member : next ∈ item.child) : next.WellFormed caseSensitive :=
  ⟨wellFormed.linked.child member, wellFormed.distinct.child member⟩

/-- Exchanging the child list of a tree: the new list must be well linked, its names
different where the tree is an object, and each of its trees well formed. -/
theorem Item.WellFormed.withChildren {item : Item} {children : List Item} {headPrev : HeadPrev}
    (linked : children ≠ [] -> headPrev = .at (children.length - 1))
    (distinct : item.isObject = true -> DistinctNamesIn caseSensitive children)
    (below : ∀ child ∈ children, child.WellFormed caseSensitive) :
    (item.withChildren children headPrev).WellFormed caseSensitive where
  linked := .mk linked (fun child member => (below child member).linked)
  distinct := .mk (fun object => distinct (by simpa [isObject, base] using object))
    (fun child member => (below child member).distinct)

theorem Item.WellLinked.withFields {item : Item} {fields : Fields} (linked : item.WellLinked) :
    (item.withFields fields).WellLinked := by
  rcases linked with ⟨here, below⟩
  exact .mk here below

/-- A rename keeps what is below. -/
theorem Item.WellFormed.withFields {item : Item} {fields : Fields}
    (wellFormed : item.WellFormed caseSensitive) (base : fields.type_.base = item.base) :
    (item.withFields fields).WellFormed caseSensitive where
  linked := wellFormed.linked.withFields
  distinct := by
    cases item with
    | mk _ _ _ =>
        rcases wellFormed.distinct with ⟨here, below⟩
        exact .mk (fun object => here (base.symm.trans object)) below

theorem nameIn_of_string {item : Item} {string : Bytes} (named : item.string = some string) :
    item.nameIn caseSensitive = foldName caseSensitive string := by
  rw [nameIn, key, named, Option.getD_some, foldName]

/-- Names that a mode takes for one are one when case is ignored. -/
theorem map_toAsciiLowercase_nameIn (item : Item) :
    (item.nameIn caseSensitive).map toAsciiLowercase = item.nameIn false := by
  rw [nameIn, nameIn, List.map_map]
  congr 1
  funext byte
  cases caseSensitive with
  | true => rfl
  | false =>
      rw [Function.comp, caseFold, if_neg Bool.false_ne_true, ← UInt8.toNat_inj, toNat_toAsciiLowercase,
        toNat_toAsciiLowercase]
      split_ifs <;> omega

/-- Names that are different up to case are different. -/
theorem Item.DistinctKeysIn.of_false {item : Item} (distinct : item.DistinctKeysIn false) :
    item.DistinctKeysIn caseSensitive := by
  induction item using Item.induct with
  | node fields child headPrev ih =>
      refine .mk (fun object => ?_) (fun next member => ih next member (distinct.child member))
      have names := distinct.names (beq_iff_eq.mpr object)
      refine ⟨names.1, List.Nodup.of_map (List.map toAsciiLowercase) ?_⟩
      rw [List.map_map]
      have folded : (List.map toAsciiLowercase ∘ nameIn caseSensitive) = nameIn false :=
        funext map_toAsciiLowercase_nameIn
      rw [folded]
      exact names.2

/-- The comparisons of the lookups are equalities of folded names. -/
theorem compareBy_caseFold_eq_zero_iff {left right : Bytes} :
    compareBy (caseFold caseSensitive) left right = 0 ↔
      foldName caseSensitive left = foldName caseSensitive right :=
  compareBy_caseFold_eq_zero caseSensitive left right

/-- Every child that a search finds has a name. -/
private theorem filter_findIdx {object : Item} (named : ∀ member ∈ object.child, member.string.isSome)
    (hit : Item -> Bool) :
    (object.child.findIdx? hit).filter (fun position =>
        (object.child[position]?.bind Item.string).isSome) = object.child.findIdx? hit := by
  cases found : object.child.findIdx? hit with
  | none => rfl
  | some position =>
      rcases List.findIdx?_eq_some_iff_getElem.mp found with ⟨bound, _⟩
      have present := named _ (List.getElem_mem bound)
      rw [Option.filter_some, List.getElem?_eq_getElem bound, Option.bind_some, if_pos present]

/-- `get_object_item` is a search for the folded name, provided that every member has
one. -/
theorem getObjectItem_eq_findIdx {object : Item} (named : ∀ member ∈ object.child, member.string.isSome)
    (name : Bytes) :
    getObjectItem object name caseSensitive =
      object.child.findIdx? (fun member =>
        decide (member.nameIn caseSensitive = foldName caseSensitive name)) := by
  cases caseSensitive with
  | true =>
      simp only [getObjectItem, if_true]
      rw [filter_findIdx named]
      refine findIdx?_congr fun member inside => ?_
      rcases Option.isSome_iff_exists.mp (named member inside) with ⟨string, stored⟩
      apply Bool.eq_iff_iff.mpr
      rw [stored, nameIn_of_string stored, decide_eq_true_iff, beq_iff_eq,
        ← compareBy_caseFold_eq_zero_iff]
      rfl
  | false =>
      simp only [getObjectItem, Bool.false_eq_true, if_false]
      rw [filter_findIdx named]
      refine findIdx?_congr fun member inside => ?_
      rcases Option.isSome_iff_exists.mp (named member inside) with ⟨string, stored⟩
      apply Bool.eq_iff_iff.mpr
      rw [stored, nameIn_of_string stored, decide_eq_true_iff, beq_iff_eq, caseInsensitiveStrcmp,
        @eq_comm _ (foldName false string), ← compareBy_caseFold_eq_zero_iff]
      rfl

/-- The members of different names, after one of them has been taken out: its name has
no value, the others keep theirs. -/
theorem jsonMembers_eraseIdx {children : List Item} {position : Nat} {member : Item}
    (distinct : (children.map (nameIn caseSensitive)).Nodup)
    (there : children[position]? = some member) :
    jsonMembers caseSensitive (children.eraseIdx position) =
      Function.update (jsonMembers caseSensitive children) (member.nameIn caseSensitive) none := by
  induction children generalizing position with
  | nil => cases there
  | cons head children ih =>
      rw [List.map_cons, List.nodup_cons] at distinct
      funext name
      cases position with
      | zero =>
          cases there
          rw [List.eraseIdx_zero, List.tail_cons]
          by_cases same : name = member.nameIn caseSensitive
          · subst same
            rw [Function.update_self, jsonMembers_eq_none_iff]
            exact distinct.1
          · rw [Function.update_of_ne same, jsonMembers, if_neg (Ne.symm same)]
      | succ position =>
          rw [List.getElem?_cons_succ] at there
          have apart : member.nameIn caseSensitive ≠ head.nameIn caseSensitive := by
            intro same
            exact distinct.1 (same ▸ List.mem_map_of_mem (List.mem_of_getElem? there))
          rw [List.eraseIdx_cons_succ, jsonMembers, ih distinct.2 there]
          by_cases here : head.nameIn caseSensitive = name
          · subst here
            rw [if_pos rfl, Function.update_of_ne apart.symm, jsonMembers, if_pos rfl]
          · rw [if_neg here]
            by_cases same : name = member.nameIn caseSensitive
            · rw [same, Function.update_self, Function.update_self]
            · rw [Function.update_of_ne same, Function.update_of_ne same, jsonMembers, if_neg here]

/-- The members with a new one behind them, whose name none of them has. -/
theorem jsonMembers_concat {children : List Item} {item : Item}
    (fresh : item.nameIn caseSensitive ∉ children.map (nameIn caseSensitive)) :
    jsonMembers caseSensitive (children ++ [item]) =
      Function.update (jsonMembers caseSensitive children) (item.nameIn caseSensitive)
        (some (item.json caseSensitive)) := by
  funext name
  rw [jsonMembers_append, jsonMembers, jsonMembers]
  by_cases same : item.nameIn caseSensitive = name
  · subst same
    rw [if_pos rfl, Function.update_self, jsonMembers_eq_none_iff.mpr fresh, Option.none_or]
  · rw [if_neg same, Function.update_of_ne (Ne.symm same), Option.or_none]

end Lists

/-! ## Finding, taking out and putting in -/

section Operations

variable {caseSensitive : Bool} {object : Item} {name : Bytes}

theorem getObjectItem_eq_none (distinct : DistinctNamesIn caseSensitive object.child)
    (absent : getObjectItem object name caseSensitive = none) :
    foldName caseSensitive name ∉ object.child.map (nameIn caseSensitive) := by
  rw [getObjectItem_eq_findIdx distinct.1, List.findIdx?_eq_none_iff] at absent
  intro inside
  rcases List.mem_map.mp inside with ⟨member, there, same⟩
  exact of_decide_eq_false (absent member there) same

theorem getObjectItem_eq_some (distinct : DistinctNamesIn caseSensitive object.child) {position : Nat}
    (found : getObjectItem object name caseSensitive = some position) :
    ∃ member, object.child[position]? = some member ∧
      member.nameIn caseSensitive = foldName caseSensitive name := by
  rw [getObjectItem_eq_findIdx distinct.1] at found
  rcases List.findIdx?_eq_some_iff_getElem.mp found with ⟨bound, hit, _⟩
  exact ⟨object.child[position], List.getElem?_eq_getElem bound, of_decide_eq_true hit⟩

/-- The `prev` of the first child, if there is one, names the last child. -/
def Item.KnowsTail (item : Item) : Prop := item.child ≠ [] -> item.headPrev = .at (item.child.length - 1)

/-- Closing up, a list does not lose its tail. -/
theorem knowsTail_detached {parent item remaining : Item} {position : Nat} (known : parent.KnowsTail)
    (detached : cjsonDetachItemViaPointer parent position = some (item, remaining)) : remaining.KnowsTail := by
  rw [cjsonDetachItemViaPointer] at detached
  cases there : parent.child[position]? with
  | none => simp [there] at detached
  | some child =>
      rw [there] at detached
      cases detached
      have bound := (List.getElem?_eq_some_iff.mp there).1
      intro nonempty
      have last := known (List.ne_nil_of_mem (List.mem_of_getElem? there))
      have more : 2 ≤ parent.child.length := by
        rcases List.eraseIdx_ne_nil_iff.mp nonempty with more | ⟨one, notFirst⟩
        · exact more
        · omega
      rw [withChildren_child, withChildren_headPrev, List.length_eraseIdx_of_lt bound]
      by_cases isLast : position ≠ 0 ∧ position + 1 = parent.child.length
      · rw [if_pos isLast]
        congr 1
        omega
      · rw [if_neg isLast, last, HeadPrev.afterRemoval, if_neg (by omega), if_pos (by omega)]

/-- Taking a child out of a list: the child, and the list without it, which is well
linked again. -/
theorem cjsonDetachItemViaPointer_wellFormed {parent item remaining : Item} {position : Nat}
    (wellFormed : parent.WellFormed caseSensitive)
    (detached : cjsonDetachItemViaPointer parent position = some (item, remaining)) :
    parent.child[position]? = some item ∧ remaining.WellFormed caseSensitive ∧
      remaining.child = parent.child.eraseIdx position ∧ remaining.fields = parent.fields := by
  have known := knowsTail_detached wellFormed.linked.headPrev detached
  rw [cjsonDetachItemViaPointer] at detached
  cases there : parent.child[position]? with
  | none => simp [there] at detached
  | some child =>
      rw [there] at detached
      cases detached
      have below : ∀ child ∈ parent.child.eraseIdx position, child.WellFormed caseSensitive :=
        fun child inside => wellFormed.child (List.mem_of_mem_eraseIdx inside)
      refine ⟨rfl, .withChildren known (fun isObject => ?_) below, rfl, rfl⟩
      have distinct := wellFormed.distinct.names isObject
      refine ⟨fun member inside => distinct.1 member (List.mem_of_mem_eraseIdx inside), ?_⟩
      exact (List.Sublist.map _ (List.eraseIdx_sublist _ _)).nodup distinct.2

/-- Putting a node behind the others. -/
theorem addItemToArray_of_last {array item : Item} (last : array.KnowsTail) :
    addItemToArray array item =
      some (array.withChildren (array.child ++ [item]) (.at array.child.length)) := by
  rw [addItemToArray]
  cases children : array.child with
  | nil => rfl
  | cons first rest =>
      rw [last (children ▸ List.cons_ne_nil first rest), children]
      simp

theorem addItemToArray_eq {array item : Item} (linked : array.WellLinked) :
    addItemToArray array item =
      some (array.withChildren (array.child ++ [item]) (.at array.child.length)) :=
  addItemToArray_of_last linked.headPrev

/-- What a lookup that fails says. -/
theorem member_absent (wellFormed : object.WellFormed caseSensitive) (isObject : object.isObject = true)
    (absent : getObjectItem object name caseSensitive = none) :
    Json.member (some (object.json caseSensitive)) (foldName caseSensitive name) = none := by
  rw [json_object isObject, Json.member_object]
  exact jsonMembers_eq_none_iff.mpr (getObjectItem_eq_none (wellFormed.distinct.names isObject) absent)

/-- A member that is found can be taken out.  Its value is what the object has under
the name, and the object that is left has nothing there; its other members keep their
values. -/
theorem member_detached (wellFormed : object.WellFormed caseSensitive) (isObject : object.isObject = true)
    {position : Nat} (found : getObjectItem object name caseSensitive = some position) :
    ∃ member rest, cjsonDetachItemViaPointer object position = some (member, rest) ∧
      member.WellFormed caseSensitive ∧
      Json.member (some (object.json caseSensitive)) (foldName caseSensitive name) =
        some (member.json caseSensitive) ∧
      rest.WellFormed caseSensitive ∧ rest.fields = object.fields ∧
      rest.json caseSensitive = .object (Function.update
        (Json.member (some (object.json caseSensitive))) (foldName caseSensitive name) none) := by
  rcases getObjectItem_eq_some (wellFormed.distinct.names isObject) found with ⟨member, there, named⟩
  rcases cjsonDetachItemViaPointer_eq_some there with ⟨rest, detached⟩
  rcases cjsonDetachItemViaPointer_wellFormed wellFormed detached with ⟨_, tidy, children, fields⟩
  have distinct := wellFormed.distinct.names isObject
  have restObject : rest.isObject = true := by
    rw [Item.isObject, Item.base, fields]
    exact isObject
  refine ⟨member, rest, detached, wellFormed.child (List.mem_of_getElem? there), ?_, tidy, fields, ?_⟩
  · rw [json_object isObject, Json.member_object, ← named]
    exact jsonMembers_of_mem distinct.2 (List.mem_of_getElem? there)
  · rw [json_object isObject, json_object restObject, children, Json.member_object,
      jsonMembers_eraseIdx distinct.2 there, named]

/-- The copy of a name is the name. -/
theorem foldName_cjsonStrdup (caseSensitive : Bool) (name : Bytes) :
    foldName caseSensitive (cjsonStrdup name) = foldName caseSensitive name := by
  rw [foldName, cjsonStrdup, text_append_zero (zero_not_mem_text name), foldName]

/-- A member of a new name can be put in, behind the others.  The item is renamed to
that name, and the object has its value there and is otherwise what it was. -/
theorem exists_addItemToObject {item : Item} (linked : object.WellLinked) (isObject : object.isObject = true)
    (fresh : Json.member (some (object.json caseSensitive)) (foldName caseSensitive name) = none) :
    ∃ result renamed, cjsonAddItemToObject object name item = some result ∧
      result.fields = object.fields ∧ result.child = object.child ++ [renamed] ∧
      renamed.nameIn caseSensitive = foldName caseSensitive name ∧ renamed.string.isSome ∧
      (item.WellFormed caseSensitive -> renamed.WellFormed caseSensitive) ∧
      (item.WellLinked -> result.WellLinked) ∧
      result.json caseSensitive = .object (Function.update
        (Json.member (some (object.json caseSensitive))) (foldName caseSensitive name)
        (some (item.json caseSensitive))) := by
  rw [json_object isObject, Json.member_object, jsonMembers_eq_none_iff] at fresh
  let renamed := item.withFields { item.fields with
    string := some (cjsonStrdup name)
    type_ := { item.fields.type_ with stringIsConst := false } }
  have named : renamed.nameIn caseSensitive = foldName caseSensitive name :=
    (nameIn_of_string rfl).trans (foldName_cjsonStrdup caseSensitive name)
  have sameValue : renamed.json caseSensitive = item.json caseSensitive :=
    json_congr rfl ⟨rfl, rfl⟩ rfl rfl rfl
  refine ⟨_, renamed, addItemToArray_eq linked, rfl, rfl, named, rfl,
    fun itemWellFormed => itemWellFormed.withFields rfl, fun itemLinked => ?_, ?_⟩
  · refine .mk (fun _ => ?_) (fun child inside => ?_)
    · rw [List.length_append, List.length_singleton, Nat.add_sub_cancel]
    · rcases List.mem_append.mp inside with old | new
      · exact linked.child old
      · rw [List.mem_singleton.mp new]
        exact itemLinked.withFields
  · rw [json_object isObject, Json.member_object, ← sameValue, ← named,
      ← jsonMembers_concat (named ▸ fresh)]
    exact json_object isObject

theorem member_added {item : Item} (wellFormed : object.WellFormed caseSensitive)
    (isObject : object.isObject = true) (itemWellFormed : item.WellFormed caseSensitive)
    (fresh : Json.member (some (object.json caseSensitive)) (foldName caseSensitive name) = none) :
    ∃ result, cjsonAddItemToObject object name item = some result ∧
      result.WellFormed caseSensitive ∧ result.fields = object.fields ∧
      result.json caseSensitive = .object (Function.update
        (Json.member (some (object.json caseSensitive))) (foldName caseSensitive name)
        (some (item.json caseSensitive))) := by
  rcases @exists_addItemToObject caseSensitive object name item wellFormed.linked isObject fresh with
    ⟨result, renamed, added, fields, children, named, isNamed, renamedWellFormed, linked, value⟩
  rw [json_object isObject, Json.member_object, jsonMembers_eq_none_iff] at fresh
  have distinct := wellFormed.distinct.names isObject
  have resultNames : DistinctNamesIn caseSensitive result.child := by
    rw [children]
    constructor
    · intro member inside
      rcases List.mem_append.mp inside with old | new
      · exact distinct.1 member old
      · rw [List.mem_singleton.mp new]
        exact isNamed
    · rw [List.map_append, List.map_singleton, List.nodup_append]
      refine ⟨distinct.2, List.nodup_singleton _, ?_⟩
      intro old inside new newest same
      rw [List.mem_singleton.mp newest, named] at same
      exact fresh (same ▸ inside)
  have below : ∀ child ∈ result.child, child.DistinctKeysIn caseSensitive := by
    intro child inside
    rw [children] at inside
    rcases List.mem_append.mp inside with old | new
    · exact wellFormed.distinct.child old
    · rw [List.mem_singleton.mp new]
      exact (renamedWellFormed itemWellFormed).distinct
  refine ⟨result, added, ⟨linked itemWellFormed.linked, ?_⟩, fields, value⟩
  cases result with
  | mk _ _ _ => exact .mk (fun _ => resultNames) below

/-- Whether or not there is a member of that name, there is one afterwards.  This is
`cjson_add_item_to_object` behind a deletion, as merging and patching use it. -/
theorem member_put {item : Item} (wellFormed : object.WellFormed caseSensitive)
    (isObject : object.isObject = true) :
    ∃ result, cjsonAddItemToObject (cjsonDeleteItemFromObject object name caseSensitive) name item =
        some result ∧
      result.fields = object.fields ∧ (item.WellLinked -> result.WellLinked) ∧
      result.json caseSensitive = .object (Function.update
        (Json.member (some (object.json caseSensitive))) (foldName caseSensitive name)
        (some (item.json caseSensitive))) := by
  have deleted : ∃ rest, cjsonDeleteItemFromObject object name caseSensitive = rest ∧
      rest.WellFormed caseSensitive ∧ rest.fields = object.fields ∧
      rest.json caseSensitive = .object (Function.update
        (Json.member (some (object.json caseSensitive))) (foldName caseSensitive name) none) := by
    rw [cjsonDeleteItemFromObject]
    cases found : getObjectItem object name caseSensitive with
    | none =>
        refine ⟨object, rfl, wellFormed, rfl, ?_⟩
        rw [← member_absent wellFormed isObject found, Function.update_eq_self]
        exact json_eq_member isObject
    | some position =>
        rcases member_detached wellFormed isObject found with
          ⟨member, rest, detached, _, _, restWellFormed, fields, value⟩
        refine ⟨rest, ?_, restWellFormed, fields, value⟩
        simp only [detached]
  rcases deleted with ⟨rest, same, restWellFormed, fields, value⟩
  have restObject : rest.isObject = true := by
    rw [Item.isObject, Item.base, fields]
    exact isObject
  have fresh : Json.member (some (rest.json caseSensitive)) (foldName caseSensitive name) = none := by
    rw [value, Json.member_object, Function.update_self]
  rcases @exists_addItemToObject caseSensitive rest name item restWellFormed.linked restObject fresh with
    ⟨result, _, added, resultFields, _, _, _, _, linked, resultValue⟩
  refine ⟨result, same ▸ added, resultFields.trans fields, linked, ?_⟩
  rw [resultValue, value, Json.member_object, Function.update_idem]

end Operations

/-! ## Copies -/

section Copies

variable {caseSensitive : Bool}

@[simp] theorem text_cjsonStrdup (string : Option Bytes) :
    (string.map cjsonStrdup).map text = string.map text := by
  rw [Option.map_map]
  congr 1
  funext block
  exact text_append_zero (zero_not_mem_text block) []

/-- What `duplicate_rec` makes of a tree, whatever the names in it are.  The copy is
well linked even where the original is not, and it has the same value, the same
height, and distinct names if the original has. -/
structure Copies (caseSensitive : Bool) (item copy : Item) : Prop where
  fields : copy.fields = item.fields.duplicate
  linked : copy.WellLinked
  json : copy.json caseSensitive = item.json caseSensitive
  distinct : item.DistinctKeysIn caseSensitive -> copy.DistinctKeysIn caseSensitive
  height : copy.height = item.height

namespace Copies

variable {item copy : Item}

theorem string (copied : Copies caseSensitive item copy) :
    copy.string.map text = item.string.map text := by
  rw [Item.string, copied.fields, Fields.duplicate, Item.string]
  by_cases isConst : item.fields.type_.stringIsConst = true
  · rw [if_pos isConst]
  · rw [if_neg isConst, text_cjsonStrdup]

theorem nameIn (copied : Copies caseSensitive item copy) :
    copy.nameIn caseSensitive = item.nameIn caseSensitive := by
  have same := copied.string
  rw [Item.nameIn, Item.nameIn, Item.key, Item.key]
  cases named : item.string with
  | none =>
      rw [named] at same
      rw [Option.map_eq_none_iff.mp same]
  | some name =>
      rw [named] at same
      rcases Option.map_eq_some_iff.mp same with ⟨other, stored, same⟩
      rw [stored, Option.getD_some, same, Option.getD_some]

theorem isSome (copied : Copies caseSensitive item copy) : copy.string.isSome = item.string.isSome := by
  rw [← Option.isSome_map (f := text), copied.string, Option.isSome_map]

/-- The values of the children are those of the copies, as elements and as members.
Names are copied as well, and so is the height below. -/
theorem children {children copies : List Item}
    (copied : List.Forall₂ (Copies caseSensitive) children copies) :
    jsonElements caseSensitive copies = jsonElements caseSensitive children ∧
      jsonMembers caseSensitive copies = jsonMembers caseSensitive children ∧
      copies.map (Item.nameIn caseSensitive) = children.map (Item.nameIn caseSensitive) ∧
      heightBelow copies = heightBelow children := by
  induction copied with
  | nil => exact ⟨rfl, rfl, rfl, rfl⟩
  | cons head _ ih =>
      refine ⟨?_, ?_, ?_, ?_⟩
      · rw [jsonElements, jsonElements, head.json, ih.1]
      · funext name
        rw [jsonMembers, jsonMembers, head.nameIn, head.json, ih.2.1]
      · rw [List.map_cons, List.map_cons, head.nameIn, ih.2.2.1]
      · rw [heightBelow, heightBelow, head.height, ih.2.2.2]

/-- Every copy has an original. -/
theorem original {children copies : List Item}
    (copied : List.Forall₂ (Copies caseSensitive) children copies) (member : copy ∈ copies) :
    ∃ child ∈ children, Copies caseSensitive child copy := by
  induction copied with
  | nil => exact absurd member List.not_mem_nil
  | cons head _ ih =>
      rcases List.mem_cons.mp member with rfl | later
      · exact ⟨_, List.mem_cons_self, head⟩
      · rcases ih later with ⟨child, inside, copied⟩
        exact ⟨child, List.mem_cons_of_mem _ inside, copied⟩

end Copies

/-- What `duplicate_rec` makes of a tree of different names: the fields without the
flag of a reference, the same value, and the same height. -/
structure CopyOf (caseSensitive : Bool) (item copy : Item) : Prop where
  fields : copy.fields = item.fields.duplicate
  wellFormed : copy.WellFormed caseSensitive
  json : copy.json caseSensitive = item.json caseSensitive
  height : copy.height = item.height

namespace CopyOf

variable {item copy : Item}

theorem copies (copied : CopyOf caseSensitive item copy) : Copies caseSensitive item copy :=
  ⟨copied.fields, copied.wellFormed.linked, copied.json, fun _ => copied.wellFormed.distinct, copied.height⟩

theorem nameIn (copied : CopyOf caseSensitive item copy) :
    copy.nameIn caseSensitive = item.nameIn caseSensitive := copied.copies.nameIn

theorem base (copied : CopyOf caseSensitive item copy) : copy.base = item.base := by
  rw [Item.base, copied.fields]
  rfl

end CopyOf

theorem height_lt_heightBelow {children : List Item} {item : Item} (member : item ∈ children) :
    item.height < heightBelow children := by
  induction children with
  | nil => exact absurd member List.not_mem_nil
  | cons head rest ih =>
      rw [heightBelow]
      rcases List.mem_cons.mp member with rfl | later
      · omega
      · have := ih later
        omega

/-- The loop over the children copies them one by one.  It gets to the end of the list
because no child is too deep for the limit. -/
theorem duplicateChildren_eq {children : List Item} {depth : Nat}
    (shallow : heightBelow children + depth ≤ cjsonCircularLimit)
    (copies : ∀ child ∈ children, child.height + (depth + 1) ≤ cjsonCircularLimit ->
      ∃ copy, duplicateRec child (depth + 1) = some copy ∧ Copies caseSensitive child copy) :
    ∃ copied, duplicateChildren children depth = some copied ∧
      List.Forall₂ (Copies caseSensitive) children copied := by
  induction children with
  | nil => exact ⟨[], rfl, .nil⟩
  | cons child rest ih =>
      rw [heightBelow] at shallow
      rcases copies child List.mem_cons_self (by omega) with ⟨copy, made, head⟩
      rcases ih (by omega) (fun other member => copies other (List.mem_cons_of_mem _ member)) with
        ⟨others, madeOthers, tail⟩
      refine ⟨copy :: others, ?_, .cons head tail⟩
      rw [duplicateChildren, if_neg (by omega), made, madeOthers]
      rfl

/-- A tree that is not too deep can be copied. -/
theorem duplicateRec_copies {item : Item} {depth : Nat}
    (shallow : item.height + depth ≤ cjsonCircularLimit) :
    ∃ copy, duplicateRec item depth = some copy ∧ Copies caseSensitive item copy := by
  induction item using Item.induct generalizing depth with
  | node fields child headPrev ih =>
      rw [height] at shallow
      rcases duplicateChildren_eq shallow (fun next member below => ih next member below) with
        ⟨copied, made, copies⟩
      refine ⟨.mk fields.duplicate copied (.ofList copied), ?_, rfl, ?_, ?_, fun distinct => ?_,
        (Copies.children copies).2.2.2⟩
      · rw [duplicateRec, made]
        rfl
      · refine .mk (fun nonempty => ?_) (fun copy member => ?_)
        · rw [HeadPrev.ofList, if_neg (by simpa using nonempty)]
        · rcases Copies.original copies member with ⟨_, _, copied⟩
          exact copied.linked
      · exact json_congr rfl ⟨rfl, rfl⟩ (text_cjsonStrdup _) (Copies.children copies).1
          (Copies.children copies).2.1
      · refine .mk (fun object => ?_) (fun copy member => ?_)
        · have names := distinct.names (beq_iff_eq.mpr object)
          refine ⟨fun copy member => ?_, ?_⟩
          · rcases Copies.original copies member with ⟨child, inside, copied⟩
            rw [copied.isSome]
            exact names.1 child inside
          · rw [(Copies.children copies).2.2.1]
            exact names.2
        · rcases Copies.original copies member with ⟨child, inside, copied⟩
          exact copied.distinct (distinct.child inside)

theorem duplicateRec_eq {item : Item} {depth : Nat}
    (shallow : item.height + depth ≤ cjsonCircularLimit)
    (distinct : item.DistinctKeysIn caseSensitive) :
    ∃ copy, duplicateRec item depth = some copy ∧ CopyOf caseSensitive item copy := by
  rcases @duplicateRec_copies caseSensitive item depth shallow with ⟨copy, made, copied⟩
  exact ⟨copy, made, copied.fields, ⟨copied.linked, copied.distinct distinct⟩, copied.json, copied.height⟩

/-- The children of a copy are the copies of the children. -/
theorem forall₂_of_duplicateChildren {children copies : List Item} {depth : Nat}
    (made : duplicateChildren children depth = some copies) :
    List.Forall₂ (fun child copy => duplicateRec child (depth + 1) = some copy) children copies := by
  induction children generalizing copies with
  | nil =>
      cases made
      exact .nil
  | cons child rest ih =>
      rw [duplicateChildren] at made
      by_cases tooDeep : cjsonCircularLimit ≤ depth
      · rw [if_pos tooDeep] at made
        cases made
      · rw [if_neg tooDeep] at made
        rcases Option.bind_eq_some_iff.mp made with ⟨copy, copied, made⟩
        rcases Option.bind_eq_some_iff.mp made with ⟨others, madeOthers, same⟩
        cases same
        exact .cons copied (ih madeOthers)

/-- Below the depth limit a copy cannot fail, and beyond it, it does.  A node without
children may stand on the last level. -/
theorem duplicateChildren_shallow {children copies : List Item} {depth : Nat}
    (below : ∀ child ∈ children, ∀ copy, duplicateRec child (depth + 1) = some copy ->
      child.child = [] ∨ child.height + (depth + 1) ≤ cjsonCircularLimit)
    (made : duplicateChildren children depth = some copies) :
    children = [] ∨ heightBelow children + depth ≤ cjsonCircularLimit := by
  induction children generalizing copies with
  | nil => exact Or.inl rfl
  | cons child rest ih =>
      right
      rw [duplicateChildren] at made
      by_cases tooDeep : cjsonCircularLimit ≤ depth
      · rw [if_pos tooDeep] at made
        cases made
      · rw [if_neg tooDeep] at made
        rcases Option.bind_eq_some_iff.mp made with ⟨copy, copied, made⟩
        rcases Option.bind_eq_some_iff.mp made with ⟨others, madeOthers, _⟩
        have restShallow := ih (fun other member => below other (List.mem_cons_of_mem _ member)) madeOthers
        have headShallow : child.height + 1 + depth ≤ cjsonCircularLimit := by
          rcases below child List.mem_cons_self copy copied with leaf | shallow
          · have flat : child.height = 0 := by
              cases child with
              | mk fields children headPrev =>
                  rw [child_mk] at leaf
                  rw [height, leaf, heightBelow]
            omega
          · omega
        rw [heightBelow]
        rcases restShallow with rfl | shallow
        · rw [heightBelow]
          omega
        · omega

theorem duplicateRec_shallow {item copy : Item} {depth : Nat} (made : duplicateRec item depth = some copy) :
    item.child = [] ∨ item.height + depth ≤ cjsonCircularLimit := by
  induction item using Item.induct generalizing depth copy with
  | node fields child headPrev ih =>
      rw [duplicateRec] at made
      rcases Option.bind_eq_some_iff.mp made with ⟨children, copied, _⟩
      rw [height]
      exact duplicateChildren_shallow (fun next member copy => ih next member) copied

/-- Only a document that is not too deep has a copy. -/
theorem height_le_of_copied {item copy : Item} (made : cjsonDuplicate item = some copy) :
    item.height ≤ cjsonCircularLimit := by
  rcases duplicateRec_shallow made with leaf | shallow
  · cases item with
    | mk fields child headPrev =>
        rw [child_mk] at leaf
        rw [height, leaf, heightBelow]
        exact Nat.zero_le _
  · exact shallow

end Copies
end CJson
