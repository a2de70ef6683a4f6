import CJson.Diff
import CJson.Places
import Mathlib.Data.List.InsertIdx

/-!
# What a generated patch does

A patch that `create_patches` writes down names a place below the root by the
steps that lead there.  Each of the seven kinds of patches is applied here once,
in a document in which the steps lead to a node: the document changes at that
node and nowhere else.
-/

namespace CJson

open CString Item

/-! ## The patches -/

/-- A node under a new name. -/
def namedItem (name : Bytes) (item : Item) : Item :=
  item.withFields { item.fields with
    string := some (cjsonStrdup name)
    type_ := { item.fields.type_ with stringIsConst := false } }

theorem nameIn_namedItem {caseSensitive : Bool} (name : Bytes) (item : Item) :
    (namedItem name item).nameIn caseSensitive = foldName caseSensitive name :=
  (nameIn_of_string rfl).trans (foldName_cjsonStrdup caseSensitive name)

/-- The object that `compose_patch` makes of its parts. -/
def patchItem (operation pointer : Bytes) (value : Option Item) : Item :=
  let members := namedItem opName (cjsonCreateString operation) ::
    namedItem pathName (cjsonCreateString pointer) :: (value.map (namedItem valueName)).toList
  .mk cjsonCreateObject.fields members (.ofList members)

theorem composePatch_plain (operation path : Bytes) (value : Option Item) :
    composePatch operation path none value =
      some (patchItem operation path (value.bind cjsonDuplicate)) := by
  rw [composePatch]
  cases value.bind cjsonDuplicate <;> rfl

theorem composePatch_suffix (operation path suffix : Bytes) (value : Option Item) :
    composePatch operation path (some suffix) value =
      some (patchItem operation (encodedPath path suffix) (value.bind cjsonDuplicate)) := by
  rw [composePatch]
  cases value.bind cjsonDuplicate <;> rfl

section Members

variable (operation pointer : Bytes) (value : Option Item) (caseSensitive : Bool)

theorem getMember_patchItem_path :
    getMember (patchItem operation pointer value) pathName caseSensitive =
      some (namedItem pathName (cjsonCreateString pointer)) := by
  cases value <;> cases caseSensitive <;> rfl

theorem getMember_patchItem_op :
    getMember (patchItem operation pointer value) opName caseSensitive =
      some (namedItem opName (cjsonCreateString operation)) := by
  cases value <;> cases caseSensitive <;> rfl

theorem getMember_patchItem_value :
    getMember (patchItem operation pointer value) valueName caseSensitive =
      value.map (namedItem valueName) := by
  cases value <;> cases caseSensitive <;> rfl

theorem decodePatchOperation_patchItem :
    decodePatchOperation (patchItem addText pointer value) caseSensitive = some .add ∧
      decodePatchOperation (patchItem removeText pointer value) caseSensitive = some .remove ∧
      decodePatchOperation (patchItem replaceText pointer value) caseSensitive = some .replace := by
  simp only [decodePatchOperation, getMember_patchItem_op]
  exact ⟨rfl, rfl, rfl⟩

end Members

/-! ## Their pointers -/

/-- A path buffer spells steps.  What is behind the terminator does not matter. -/
def Spells (path : Bytes) (steps : List (Json.Step Bytes)) : Prop := text path = pointerText steps

theorem spells_encodedPath {path : Bytes} {steps : List (Json.Step Bytes)} (spells : Spells path steps)
    (name : Bytes) : Spells (encodedPath path name) (steps ++ [.member (text name)]) := by
  have start : (text path ++ [slash]).length = (text path).length + 1 := by simp
  have free : (0 : UInt8) ∉ text path ++ [slash] ++ escape (text name) := by
    intro inside
    rcases List.mem_append.mp inside with front | back
    · rcases List.mem_append.mp front with old | separator
      · exact zero_not_mem_text path old
      · exact slash_ne_zero (List.mem_singleton.mp separator).symm
    · exact zero_not_mem_escape (zero_not_mem_text name) back
  have room : (text path).length + 1 + pointerEncodedLength name <
      (text path ++ slash :: List.replicate (pointerEncodedLength name + 1) 0).length := by
    rw [List.length_append, List.length_cons, List.length_replicate]
    omega
  rw [Spells, pointerText_concat, ← spells, encodedPath, encodeStringAsPointer_eq name room,
    List.append_cons (text path) slash (List.replicate _ _), ← start, List.take_left,
    ← List.append_assoc, text_append_zero free, stepToken, List.append_assoc, List.singleton_append]

theorem spells_allocIndexedPath {path : Bytes} {steps : List (Json.Step Bytes)}
    (spells : Spells path steps) (index : Nat) :
    Spells (allocIndexedPath path index) (steps ++ [.element index]) := by
  rw [Spells, pointerText_concat, ← spells, allocIndexedPath, stepToken]
  have free : (0 : UInt8) ∉ text path ++ slash :: decimalDigits index := by
    intro inside
    rcases List.mem_append.mp inside with front | back
    · exact zero_not_mem_text path front
    · rcases List.mem_cons.mp back with separator | digit
      · exact slash_ne_zero separator.symm
      · exact absurd (isDigit_of_mem_decimalDigits digit) (by decide)
  have behind := text_append_zero free []
  rwa [List.append_assoc, List.cons_append] at behind

/-- The token of an index is written as it is. -/
theorem escape_decimalDigits (index : Nat) : escape (decimalDigits index) = decimalDigits index := by
  apply escape_eq_self <;>
    exact fun inside => absurd (isDigit_of_mem_decimalDigits inside) (by decide)

/-! ## Changes at a place -/

/-- One run after another; the first one may stop short of its end, and then the
second one is not begun. -/
theorem applyPatchesLoop_concat (document : Item) (caseSensitive : Bool) (first second : List Item) :
    applyPatchesLoop document caseSensitive (first ++ second) =
      (applyPatchesLoop document caseSensitive first).bind fun run =>
        if run.1 ≠ 0 then some (run.1, run.2.1, run.2.2 ++ second)
        else (applyPatchesLoop run.2.1 caseSensitive second).map fun rest =>
          (rest.1, rest.2.1, run.2.2 ++ rest.2.2) := by
  induction first generalizing document with
  | nil =>
      show applyPatchesLoop document caseSensitive second =
        (applyPatchesLoop document caseSensitive second).map fun rest => (rest.1, rest.2.1, [] ++ rest.2.2)
      cases applyPatchesLoop document caseSensitive second <;> rfl
  | cons patch first ih =>
      rw [List.cons_append, applyPatchesLoop, applyPatchesLoop]
      cases applyPatch document patch caseSensitive with
      | none => rfl
      | some patched =>
          simp only [Option.bind_eq_bind, Option.bind_some]
          by_cases failed : patched.status ≠ 0
          · rw [if_pos failed, if_pos failed, Option.bind_some, if_pos failed]
            rfl
          · rw [if_neg failed, if_neg failed, ih, Option.bind_assoc, Option.bind_assoc]
            apply Option.bind_congr
            intro run _
            rw [Option.bind_some]
            by_cases stopped : run.1 ≠ 0
            · rw [if_pos stopped, if_pos stopped]
              rfl
            · rw [if_neg stopped, if_neg stopped]
              cases applyPatchesLoop run.2.1 caseSensitive second <;> rfl

theorem applyPatchesLoop_append {document changed : Item} {caseSensitive : Bool} {first second : List Item}
    (applied : applyPatchesLoop document caseSensitive first = some (0, changed, first)) :
    applyPatchesLoop document caseSensitive (first ++ second) =
      (applyPatchesLoop changed caseSensitive second).map fun (status, object, others) =>
        (status, object, first ++ others) := by
  rw [applyPatchesLoop_concat, applied, Option.bind_some]
  exact if_neg (not_not.mpr rfl)

theorem Item.modify_self {item node : Item} {place : Item.Path} (found : item.at? place = some node) :
    item.modify (fun _ => some node) place = some item := by
  induction place generalizing item with
  | nil =>
      cases found
      rfl
  | cons position place ih =>
      cases child : item.child[position]? with
      | none => simp [Item.at?, child] at found
      | some next =>
          simp only [Item.at?, child] at found
          rcases List.getElem?_eq_some_iff.mp child with ⟨inside, rfl⟩
          simp only [Item.modify, child, ih found, Option.map_some, List.set_getElem_self]
          exact congrArg some (Item.eta item)

/-- In every document in which the steps lead to the node, the patches put the other
node into its place.  They all succeed, none of them is changed by being applied, and
the rest of the document is what it was; two such lists of patches can be run one
after the other. -/
structure Rewrites (caseSensitive : Bool) (steps : List (Json.Step Bytes)) (patches : List Item)
    (node new : Item) : Prop where
  wellFormed : new.WellFormed caseSensitive
  fields : new.fields = node.fields
  runs : ∀ document place, Leads caseSensitive document steps place node ->
    ∃ changed, applyPatchesLoop document caseSensitive patches = some (0, changed, patches) ∧
      document.modify (fun _ => some new) place = some changed

namespace Rewrites

variable {caseSensitive : Bool} {steps : List (Json.Step Bytes)} {first second patches : List Item}
  {node middle new : Item}

theorem nil (wellFormed : node.WellFormed caseSensitive) : Rewrites caseSensitive steps [] node node where
  wellFormed := wellFormed
  fields := rfl
  runs document _ leads := ⟨document, rfl, Item.modify_self leads.at?⟩

theorem append (before : Rewrites caseSensitive steps first node middle)
    (after : Rewrites caseSensitive steps second middle new) :
    Rewrites caseSensitive steps (first ++ second) node new where
  wellFormed := after.wellFormed
  fields := after.fields.trans before.fields
  runs document place leads := by
    rcases before.runs document place leads with ⟨between, applied, modified⟩
    rcases leads.modify before.fields before.wellFormed with ⟨other, same, betweenLeads⟩
    rw [modified] at same
    cases same
    rcases after.runs between place betweenLeads with ⟨changed, appliedAfter, modifiedAfter⟩
    refine ⟨changed, ?_, ?_⟩
    · rw [applyPatchesLoop_append applied, appliedAfter]
      rfl
    · rw [← Item.modify_modify modified, modifiedAfter]

/-- One patch, which changes the node wherever the node stands in a document and
leaves the rest of the document alone. -/
theorem single {patch : Item} (wellFormed : new.WellFormed caseSensitive) (fields : new.fields = node.fields)
    (applies : ∀ document place, Leads caseSensitive document steps place node ->
      applyPatch document patch caseSensitive =
        (document.modify (fun _ => some new) place).map fun changed => ⟨0, changed, patch⟩) :
    Rewrites caseSensitive steps [patch] node new where
  wellFormed := wellFormed
  fields := fields
  runs document place leads := by
    rcases leads.modify fields wellFormed with ⟨changed, modified, _⟩
    refine ⟨changed, ?_, modified⟩
    rw [applyPatchesLoop, applies document place leads, modified]
    rfl

/-- Patches below a child change the node by that child.  The steps lead through the
child, which stands where the last of them says. -/
theorem below {next newNext : Item} {step : Json.Step Bytes} {position : Nat}
    (rewrites : Rewrites caseSensitive (steps ++ [step]) patches next newNext)
    (nodeWellFormed : node.WellFormed caseSensitive) (spellable : Spellable step)
    (there : node.child[position]? = some next)
    (stands : Stands caseSensitive node position next (foldStep caseSensitive step)) :
    Rewrites caseSensitive steps patches node
      (node.withChildren (node.child.set position newNext) node.headPrev) where
  wellFormed := nodeWellFormed.set there (congrArg Fields.string rewrites.fields) rewrites.wellFormed
  fields := rfl
  runs document place leads := by
    rcases rewrites.runs document _ (leads.child spellable there stands) with ⟨changed, applied, modified⟩
    rw [Item.modify_concat leads.at? there] at modified
    exact ⟨changed, applied, modified⟩

end Rewrites

/-! ## The value of a patch -/

theorem duplicateChildren_height {children copies : List Item} {depth : Nat}
    (below : ∀ child ∈ children, ∀ copy, duplicateRec child (depth + 1) = some copy ->
      copy.height = child.height)
    (made : duplicateChildren children depth = some copies) : heightBelow copies = heightBelow children := by
  induction children generalizing copies with
  | nil =>
      cases made
      rfl
  | cons child rest ih =>
      rw [duplicateChildren] at made
      by_cases tooDeep : cjsonCircularLimit ≤ depth
      · rw [if_pos tooDeep] at made
        cases made
      · rw [if_neg tooDeep] at made
        rcases Option.bind_eq_some_iff.mp made with ⟨copy, copied, made⟩
        rcases Option.bind_eq_some_iff.mp made with ⟨others, madeOthers, same⟩
        cases same
        rw [heightBelow, heightBelow, below child List.mem_cons_self copy copied,
          ih (fun other member => below other (List.mem_cons_of_mem _ member)) madeOthers]

/-- A copy is as deep as the original. -/
theorem duplicateRec_height {item copy : Item} {depth : Nat} (made : duplicateRec item depth = some copy) :
    copy.height = item.height := by
  induction item using Item.induct generalizing depth copy with
  | node fields child headPrev ih =>
      rw [duplicateRec] at made
      rcases Option.bind_eq_some_iff.mp made with ⟨children, copied, same⟩
      cases same
      rw [height, height]
      exact duplicateChildren_height (fun next member copy => ih next member) copied

/-- The value in a patch is a copy, and a copy of it is what the document gets.
Neither of the two copies can fail if the value is shallow enough. -/
theorem value_copied {caseSensitive : Bool} {item : Item} (shallow : item.height ≤ cjsonCircularLimit)
    (distinct : item.DistinctKeysIn caseSensitive) :
    ∃ value copy, cjsonDuplicate item = some value ∧
      cjsonDuplicate (namedItem valueName value) = some copy ∧ copy.WellFormed caseSensitive ∧
      copy.json caseSensitive = item.json caseSensitive := by
  rcases @duplicateRec_eq caseSensitive item 0 (by omega) distinct with ⟨value, made, copied⟩
  have named : (namedItem valueName value).WellFormed caseSensitive := copied.wellFormed.withFields rfl
  have sameHeight : (namedItem valueName value).height = value.height := by
    cases value
    rfl
  have shallowValue : (namedItem valueName value).height + 0 ≤ cjsonCircularLimit := by
    rw [sameHeight, duplicateRec_height made]
    omega
  rcases duplicateRec_eq shallowValue named.distinct with ⟨copy, madeAgain, copiedAgain⟩
  refine ⟨value, copy, made, madeAgain, copiedAgain.wellFormed, ?_⟩
  rw [copiedAgain.json, ← copied.json]
  exact json_congr rfl ⟨rfl, rfl⟩ rfl rfl rfl

/-! ## Patches of object members -/

section Objects

variable {caseSensitive : Bool} {steps : List (Json.Step Bytes)} {node rest result member copy : Item}
  {pointer name : Bytes} {value : Option Item} {position : Nat}

/-- The three operations, at the node that the steps lead to.  The path of the patch
spells those steps and a name, and the decoder gives that name back. -/
private theorem applyPatch_leads {document : Item} {place : Item.Path} {operation : Bytes}
    {decoded : PatchOperation} (leads : Leads caseSensitive document steps place node)
    (isObject : node.isObject = true) (free : (0 : UInt8) ∉ name) (keeps : KeepsPlaces name)
    (spells : Spells pointer (steps ++ [.member name]))
    (decodes : decodePatchOperation (patchItem operation pointer value) caseSensitive = some decoded)
    (kind : decoded = .add ∨ decoded = .remove ∨ decoded = .replace)
    (agree : decoded ≠ .add -> getObjectItem node name caseSensitive = getObjectItem node name false) :
    applyPatch document (patchItem operation pointer value) caseSensitive =
      patchMember document (patchItem operation pointer value) decoded place name caseSensitive := by
  have ends : text (cjsonStrdup pointer) = pointerText steps ++ slash :: escape name := by
    rw [cjsonStrdup, text_append_zero (zero_not_mem_text pointer), spells, pointerText_concat, stepToken]
  exact applyPatch_member free keeps decodes kind (getMember_patchItem_path operation pointer value
    caseSensitive) rfl rfl ends leads.walked leads.at? isObject agree

private theorem removeMember_leads {document : Item} {place : Item.Path}
    (leads : Leads caseSensitive document steps place node)
    (found : getObjectItem node name caseSensitive = some position)
    (detached : cjsonDetachItemViaPointer node position = some (member, rest)) :
    removeMember document place name caseSensitive = document.modify (fun _ => some rest) place := by
  rw [removeMember, Item.modify_const leads.at?, found, Option.bind_some, detached]
  rfl

private theorem setMember_leads {document : Item} {place : Item.Path} {operation : Bytes} {given : Item}
    (leads : Leads caseSensitive document steps place node)
    (copied : cjsonDuplicate (namedItem valueName given) = some copy)
    (added : cjsonAddItemToObject (cjsonDeleteItemFromObject node name caseSensitive) name copy =
      some result) :
    setMember document (patchItem operation pointer (some given)) place name caseSensitive =
      (document.modify (fun _ => some result) place).map fun changed =>
        ⟨0, changed, patchItem operation pointer (some given)⟩ := by
  rw [setMember, getMember_patchItem_value]
  simp only [Option.map_some, copied]
  rw [Item.modify_const leads.at?, added, Option.bind_some]
  cases document.modify (fun _ => some result) place <;> rfl

/-- `remove`, of a member that both lookups find: the one of the mode, and the one
that ignores case and is used for detaching. -/
theorem rewrites_removeMember (wellFormed : node.WellFormed caseSensitive) (isObject : node.isObject = true)
    (free : (0 : UInt8) ∉ name) (keeps : KeepsPlaces name) (spells : Spells pointer (steps ++ [.member name]))
    (agree : getObjectItem node name caseSensitive = getObjectItem node name false)
    (found : getObjectItem node name caseSensitive = some position)
    (detached : cjsonDetachItemViaPointer node position = some (member, rest)) :
    Rewrites caseSensitive steps [patchItem removeText pointer value] node rest := by
  have tidy := cjsonDetachItemViaPointer_wellFormed wellFormed detached
  apply Rewrites.single tidy.2.1 tidy.2.2.2
  intro document place leads
  rcases leads.modify tidy.2.2.2 tidy.2.1 with ⟨changed, modified, _⟩
  rw [applyPatch_leads leads isObject free keeps spells (decodePatchOperation_patchItem _ _ _).2.1
    (Or.inr (Or.inl rfl)) (fun _ => agree), patchMember, if_neg (by decide),
    removeMember_leads leads found detached, modified]
  rfl

/-- `add`. -/
theorem rewrites_addMember {given : Item} (isObject : node.isObject = true)
    (free : (0 : UInt8) ∉ name) (keeps : KeepsPlaces name) (spells : Spells pointer (steps ++ [.member name]))
    (copied : cjsonDuplicate (namedItem valueName given) = some copy)
    (added : cjsonAddItemToObject (cjsonDeleteItemFromObject node name caseSensitive) name copy =
      some result)
    (resultWellFormed : result.WellFormed caseSensitive) (fields : result.fields = node.fields) :
    Rewrites caseSensitive steps [patchItem addText pointer (some given)] node result := by
  apply Rewrites.single resultWellFormed fields
  intro document place leads
  rw [applyPatch_leads leads isObject free keeps spells (decodePatchOperation_patchItem _ _ _).1
    (Or.inl rfl) (fun impossible => absurd rfl impossible), patchMember, if_pos rfl,
    setMember_leads leads copied added]

/-- `replace`, of a member that both lookups find: it goes, and the new one is put
behind the others. -/
theorem rewrites_replaceMember {given : Item} (wellFormed : node.WellFormed caseSensitive)
    (isObject : node.isObject = true)
    (free : (0 : UInt8) ∉ name) (keeps : KeepsPlaces name) (spells : Spells pointer (steps ++ [.member name]))
    (agree : getObjectItem node name caseSensitive = getObjectItem node name false)
    (found : getObjectItem node name caseSensitive = some position)
    (detached : cjsonDetachItemViaPointer node position = some (member, rest))
    (copied : cjsonDuplicate (namedItem valueName given) = some copy)
    (added : cjsonAddItemToObject (cjsonDeleteItemFromObject rest name caseSensitive) name copy =
      some result)
    (resultWellFormed : result.WellFormed caseSensitive) (fields : result.fields = rest.fields) :
    Rewrites caseSensitive steps [patchItem replaceText pointer (some given)] node result := by
  have tidy := cjsonDetachItemViaPointer_wellFormed wellFormed detached
  apply Rewrites.single resultWellFormed (fields.trans tidy.2.2.2)
  intro document place leads
  rcases leads.modify tidy.2.2.2 tidy.2.1 with ⟨between, modified, betweenLeads⟩
  rw [applyPatch_leads leads isObject free keeps spells (decodePatchOperation_patchItem _ _ _).2.2
    (Or.inr (Or.inr rfl)) (fun _ => agree), patchMember, if_neg (by decide),
    removeMember_leads leads found detached, modified]
  simp only []
  rw [if_neg (by decide), setMember_leads betweenLeads copied added, Item.modify_modify modified]

end Objects

/-! ## Patches of array elements -/

section Arrays

variable {caseSensitive : Bool} {steps : List (Json.Step Bytes)} {node rest result item copy given : Item}
  {pointer : Bytes} {value : Option Item} {index : Nat}

theorem isArray_congr {other : Item} (array : node.isArray = true) (fields : other.fields = node.fields) :
    other.isArray = true := by
  rw [Item.isArray, Item.base, fields]
  exact array

/-- Names of the children do not matter in an array. -/
theorem array_wellFormed (array : node.isArray = true) (fields : result.fields = node.fields)
    (linked : result.WellLinked) (below : ∀ child ∈ result.child, child.DistinctKeysIn caseSensitive) :
    result.WellFormed caseSensitive := by
  refine ⟨linked, ?_⟩
  have notObject := not_isObject_of_isArray (isArray_congr array fields)
  cases result with
  | mk fields child headPrev => exact .mk (fun object => absurd (beq_iff_eq.mpr object) notObject) below

/-- Putting a node behind the others. -/
theorem addItemToArray_linked (linked : node.WellLinked) :
    ∃ result, addItemToArray node item = some result ∧ result.fields = node.fields ∧
      result.child = node.child ++ [item] ∧ (item.WellLinked -> result.WellLinked) := by
  refine ⟨_, addItemToArray_eq linked, rfl, rfl, fun itemLinked => .mk (fun _ => ?_) (fun child inside => ?_)⟩
  · rw [List.length_append, List.length_singleton, Nat.add_sub_cancel]
  · rcases List.mem_append.mp inside with old | new
    · exact linked.child old
    · exact List.mem_singleton.mp new ▸ itemLinked

/-- Putting a node in front of another one, or behind the last one. -/
theorem insertItemInArray_linked (linked : node.WellLinked) (inside : index ≤ node.child.length) :
    ∃ result, insertItemInArray node index item = some (true, result) ∧ result.fields = node.fields ∧
      result.child = node.child.insertIdx index item ∧ (item.WellLinked -> result.WellLinked) := by
  rw [insertItemInArray, if_neg (by omega)]
  by_cases last : index = node.child.length
  · rcases @addItemToArray_linked node item linked with ⟨result, added, fields, children, resultLinked⟩
    refine ⟨result, ?_, fields, ?_, resultLinked⟩
    · rw [if_pos last, added]
      rfl
    · rw [children, last, List.insertIdx_length_self]
  · rw [if_neg last]
    have nonempty : node.child ≠ [] := by
      intro empty
      rw [empty, List.length_nil] at inside last
      omega
    refine ⟨_, rfl, rfl, rfl, fun itemLinked => .mk (fun _ => ?_) (fun child member => ?_)⟩
    · rw [linked.headPrev nonempty, HeadPrev.afterInsertion, if_pos (by omega),
        List.length_insertIdx_of_le_length inside]
      congr 1
      omega
    · rcases List.mem_insertIdx inside |>.mp member with rfl | old
      · exact itemLinked
      · exact linked.child old

theorem addItemToArray_array (wellFormed : node.WellFormed caseSensitive) (array : node.isArray = true)
    (itemWellFormed : item.WellFormed caseSensitive) :
    ∃ result, addItemToArray node item = some result ∧ result.WellFormed caseSensitive ∧
      result.fields = node.fields ∧ result.child = node.child ++ [item] := by
  rcases @addItemToArray_linked node item wellFormed.linked with ⟨result, added, fields, children, linked⟩
  refine ⟨result, added, array_wellFormed array fields (linked itemWellFormed.linked) ?_, fields, children⟩
  intro child inside
  rw [children] at inside
  rcases List.mem_append.mp inside with old | new
  · exact wellFormed.distinct.child old
  · exact List.mem_singleton.mp new ▸ itemWellFormed.distinct

theorem insertItemInArray_array (wellFormed : node.WellFormed caseSensitive) (array : node.isArray = true)
    (itemWellFormed : item.WellFormed caseSensitive) (inside : index ≤ node.child.length) :
    ∃ result, insertItemInArray node index item = some (true, result) ∧ result.WellFormed caseSensitive ∧
      result.fields = node.fields ∧ result.child = node.child.insertIdx index item := by
  rcases @insertItemInArray_linked node item index wellFormed.linked inside with
    ⟨result, inserted, fields, children, linked⟩
  refine ⟨result, inserted, array_wellFormed array fields (linked itemWellFormed.linked) ?_, fields, children⟩
  intro child member
  rw [children] at member
  rcases List.mem_insertIdx inside |>.mp member with rfl | old
  · exact itemWellFormed.distinct
  · exact wellFormed.distinct.child old

/-- A path below the root is not the root's. -/
private theorem first_ne_zero {step : Json.Step Bytes} (spells : Spells pointer (steps ++ [step])) :
    first (cjsonStrdup pointer) ≠ 0 := by
  rw [cjsonStrdup, spells]
  intro ended
  cases steps with
  | nil => exact slash_ne_zero ended
  | cons head steps => exact slash_ne_zero ended

private theorem applyPatch_atPath {document : Item} {operation : Bytes} {decoded : PatchOperation}
    {step : Json.Step Bytes} (spells : Spells pointer (steps ++ [step]))
    (decodes : decodePatchOperation (patchItem operation pointer value) caseSensitive = some decoded)
    (kind : decoded = .add ∨ decoded = .remove ∨ decoded = .replace) :
    applyPatch document (patchItem operation pointer value) caseSensitive =
      applyAtPath document (patchItem operation pointer value) decoded (cjsonStrdup pointer) caseSensitive := by
  have nonempty := first_ne_zero spells
  have isString : (namedItem pathName (cjsonCreateString pointer)).isString = true := rfl
  have stored : (namedItem pathName (cjsonCreateString pointer)).fields.valuestring =
      some (cjsonStrdup pointer) := rfl
  simp only [applyPatch, getMember_patchItem_path, isString, decodes, stored, Bool.not_true,
    Bool.false_eq_true, if_false]
  rcases kind with rfl | rfl | rfl <;> simp [nonempty]

/-- The last token of the path of an element. -/
private theorem splitPointer_element {back : Bytes} (spellable : ∀ step ∈ steps, Spellable step)
    (ends : text pointer = pointerText steps ++ slash :: back) (oneToken : slash ∉ back) :
    splitPointer (cjsonUtilsStrdup (cjsonStrdup pointer)) = some (pointerText steps, back) := by
  rw [cjsonUtilsStrdup, cjsonStrdup, text_append_zero (zero_not_mem_text pointer), ends,
    splitPointer_append _ (pointerText_free spellable) oneToken]

private theorem decodePointerInplace_digits (index : Nat) :
    decodePointerInplace (decimalDigits index) = decimalDigits index := by
  apply decodePointerInplace_eq_self <;>
    exact fun inside => absurd (isDigit_of_mem_decimalDigits inside) (by decide)

private theorem decode_digits (small : index < usizeBound) :
    decodeArrayIndexFromPointer (decodePointerInplace (decimalDigits index)) = some index := by
  rw [decodePointerInplace_digits, decodeArrayIndexFromPointer_decimalDigits small]

private theorem decode_digits_ne_dash (index : Nat) :
    compareBy id (decodePointerInplace (decimalDigits index)) [45] ≠ 0 := by
  have free : (0 : UInt8) ∉ decimalDigits index :=
    fun inside => absurd (isDigit_of_mem_decimalDigits inside) (by decide)
  rw [decodePointerInplace_digits, Ne, (compareBy_spec keepsTerminator_id _ _).2, folded, text_eq_self free]
  intro same
  have dash : 45 ∈ (decimalDigits index).map fun byte => (id byte).toNat := by
    rw [same]
    exact List.mem_singleton.mpr rfl
  rcases List.mem_map.mp dash with ⟨byte, inside, isDash⟩
  have digit := isDigit_iff.mp (isDigit_of_mem_decimalDigits inside)
  rw [id] at isDash
  omega

private theorem detachPath_element {document : Item} {place : Item.Path}
    (leads : Leads caseSensitive document steps place node) (array : node.isArray = true)
    (small : index < usizeBound) (spells : Spells pointer (steps ++ [.element index]))
    (detached : cjsonDetachItemViaPointer node index = some (item, rest)) :
    detachPath document (cjsonStrdup pointer) caseSensitive =
      (document.modify (fun _ => some rest) place).map fun changed =>
        (place ++ [index], item, changed) := by
  rw [Spells, pointerText_concat] at spells
  have token := splitPointer_element leads.spellable spells (@stepToken_free (.element index) small).2
  rw [detachPath, token]
  simp only [leads.walked, leads.at?, if_pos array, stepToken, decode_digits small, detachItemFromArray,
    detached, Option.map_some]

/-- `remove`. -/
theorem rewrites_removeElement (wellFormed : node.WellFormed caseSensitive) (array : node.isArray = true)
    (small : index < usizeBound) (spells : Spells pointer (steps ++ [.element index]))
    (detached : cjsonDetachItemViaPointer node index = some (item, rest)) :
    Rewrites caseSensitive steps [patchItem removeText pointer value] node rest := by
  have tidy := cjsonDetachItemViaPointer_wellFormed wellFormed detached
  apply Rewrites.single tidy.2.1 tidy.2.2.2
  intro document place leads
  rcases leads.modify tidy.2.2.2 tidy.2.1 with ⟨changed, modified, _⟩
  rw [applyPatch_atPath spells (decodePatchOperation_patchItem _ _ _).2.1 (Or.inr (Or.inl rfl)),
    applyAtPath, detachPath_element leads array small spells detached, modified]
  rfl

/-- `add`, behind the last element. -/
theorem rewrites_appendElement (array : node.isArray = true)
    (spells : Spells pointer (steps ++ [.member [45]]))
    (copied : cjsonDuplicate (namedItem valueName given) = some copy)
    (added : addItemToArray node copy = some result) (resultWellFormed : result.WellFormed caseSensitive)
    (fields : result.fields = node.fields) :
    Rewrites caseSensitive steps [patchItem addText pointer (some given)] node result := by
  apply Rewrites.single resultWellFormed fields
  intro document place leads
  have ends := spells
  rw [Spells, pointerText_concat] at ends
  have token := splitPointer_element leads.spellable ends (slash_not_mem_escape [45])
  rw [applyPatch_atPath spells (decodePatchOperation_patchItem _ _ _).1 (Or.inl rfl), applyAtPath,
    addValue, getMember_patchItem_value]
  simp only [Option.map_some, copied]
  rw [addToPath, token]
  simp only [leads.walked, leads.at?, if_pos array, added, Option.bind_eq_bind,
    Option.bind_some]
  cases document.modify (fun _ => some result) place <;> rfl

/-- `replace`. -/
theorem rewrites_replaceElement (wellFormed : node.WellFormed caseSensitive) (array : node.isArray = true)
    (small : index < usizeBound) (spells : Spells pointer (steps ++ [.element index]))
    (detached : cjsonDetachItemViaPointer node index = some (item, rest))
    (copied : cjsonDuplicate (namedItem valueName given) = some copy)
    (inserted : insertItemInArray rest index copy = some (true, result))
    (resultWellFormed : result.WellFormed caseSensitive) (fields : result.fields = rest.fields) :
    Rewrites caseSensitive steps [patchItem replaceText pointer (some given)] node result := by
  have tidy := cjsonDetachItemViaPointer_wellFormed wellFormed detached
  apply Rewrites.single resultWellFormed (fields.trans tidy.2.2.2)
  intro document place leads
  rcases leads.modify tidy.2.2.2 tidy.2.1 with ⟨between, modified, betweenLeads⟩
  have notDash := decode_digits_ne_dash index
  have ends := spells
  rw [Spells, pointerText_concat] at ends
  have token := splitPointer_element leads.spellable ends (@stepToken_free (.element index) small).2
  rw [applyPatch_atPath spells (decodePatchOperation_patchItem _ _ _).2.2 (Or.inr (Or.inr rfl)), applyAtPath,
    detachPath_element leads array small spells detached, modified, Option.map_some]
  simp only [addValue, getMember_patchItem_value, Option.map_some, copied]
  rw [addToPath, token]
  simp only [betweenLeads.walked, betweenLeads.at?, if_pos (isArray_congr array tidy.2.2.2), stepToken,
    if_neg notDash, decode_digits small, inserted, Option.bind_eq_bind, Option.bind_some, if_true,
    Item.modify_modify modified]
  cases document.modify (fun _ => some result) place <;> rfl

end Arrays

end CJson
