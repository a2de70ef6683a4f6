import CJson.Generated

/-!
# Patches from one document to another

Patches that have been generated for two documents, applied to a copy of the first
one, make the second one of it.
-/

namespace CJson

open CString Item

section Runs

variable {caseSensitive : Bool} {from_ to_ : Item}

/-- A replacement of the root, by a copy of the value that has lost its name. -/
theorem applyPatch_root {object value copy : Item} {path : Bytes} (spells : Spells path [])
    (copied : cjsonDuplicate (namedItem valueName value) = some copy) :
    applyPatch object (patchItem replaceText path (some value)) caseSensitive =
      some ⟨0, copy.withFields { copy.fields with string := none },
        patchItem replaceText path (some value)⟩ := by
  have isString : (namedItem pathName (cjsonCreateString path)).isString = true := rfl
  have stored : (namedItem pathName (cjsonCreateString path)).fields.valuestring =
      some (cjsonStrdup path) := rfl
  have root : first (cjsonStrdup path) = 0 := by
    rw [cjsonStrdup, spells]
    rfl
  have decoded := (decodePatchOperation_patchItem path (some value) caseSensitive).2.2
  simp only [applyPatch, getMember_patchItem_path, isString, decoded, stored, Bool.not_true,
    Bool.false_eq_true, if_false, Option.bind_eq_bind, Option.bind_some, root]
  simp only [ne_eq, reduceCtorEq, not_false_eq_true, and_self, if_true, overwriteRoot,
    getMember_patchItem_value, Option.map_some, copied, if_false]

/-- The patches for two documents change every document that has the value of the
first one, and in which they find their places, into one that has the value of the
second one. -/
theorem generatePatches_run (fromDistinct : from_.DistinctKeysIn caseSensitive)
    (toDistinct : to_.DistinctKeysIn caseSensitive) (fromPlain : Plain (from_.json caseSensitive))
    (toPlain : Plain (to_.json caseSensitive)) (addressable : from_.Addressable) :
    ∃ patches fromLeft toLeft,
      generatePatches from_ to_ caseSensitive = some (patches, fromLeft, toLeft) ∧
      Tidied caseSensitive from_ fromLeft ∧ Tidied caseSensitive to_ toLeft ∧
      ∀ object : Item, object.WellFormed caseSensitive ->
        object.json caseSensitive = from_.json caseSensitive -> Mendable caseSensitive object to_ ->
        ∃ result, cjsonUtilsApplyPatches object patches caseSensitive = some (0, result, patches) ∧
          result.WellFormed caseSensitive ∧ result.json caseSensitive = to_.json caseSensitive := by
  have root : Spells [0] [] := rfl
  rcases createPatches_creates root (Nat.lt_succ_self _) fromDistinct toDistinct fromPlain toPlain
    addressable with ⟨diff, made, creates⟩
  refine ⟨.mk { type_ := { base := .array } } diff.patches (.ofList diff.patches), diff.from_, diff.to_, ?_,
    creates.tidyFrom, creates.tidyTo, ?_⟩
  · rw [generatePatches, made]
    rfl
  · intro object wellFormed value mendable
    have ran : ∃ result, applyPatchesLoop object caseSensitive diff.patches = some (0, result, diff.patches) ∧
        result.WellFormed caseSensitive ∧ result.json caseSensitive = to_.json caseSensitive := by
      by_cases replaced : Replaced from_ to_
      · rcases creates.diffs.replaced replaced with ⟨path, spells, patches⟩
        rcases value_copied (mendable.shallow ((replaced_congr value).mpr replaced)) toDistinct with
          ⟨given, copy, given_made, copied, copyWellFormed, copyValue⟩
        rw [patches, given_made]
        refine ⟨copy.withFields { copy.fields with string := none }, ?_, copyWellFormed.withFields rfl, ?_⟩
        · rw [applyPatchesLoop, applyPatch_root spells copied]
          rfl
        · rw [← copyValue]
          exact json_congr rfl ⟨rfl, rfl⟩ rfl rfl rfl
      · rcases creates.diffs.walked replaced object wellFormed value mendable with ⟨next, rewrites, nextValue⟩
        rcases rewrites.runs object [] (.here wellFormed) with ⟨changed, applied, modified⟩
        cases modified
        exact ⟨next, applied, rewrites.wellFormed, nextValue⟩
    rcases ran with ⟨result, applied, resultWellFormed, resultValue⟩
    refine ⟨result, ?_, resultWellFormed, resultValue⟩
    rw [cjsonUtilsApplyPatches, if_neg (by simp [isArray])]
    simp only [child_mk, applied, Option.bind_eq_bind, Option.bind_some]
    rfl

end Runs

/-! ## Without regard to case -/

/-- No member name in an object has a byte that a token escapes.  Such a name is its
own token, in every mode of the decoder. -/
inductive Item.PlainKeys : Item -> Prop where
  | mk {fields : Fields} {child : List Item} {headPrev : HeadPrev}
      (here : fields.type_.base = .object -> ∀ item ∈ child, slash ∉ item.key ∧ tilde ∉ item.key)
      (below : ∀ item ∈ child, PlainKeys item) : PlainKeys (mk fields child headPrev)

/-- The same of a value: at no depth does a member name contain a slash or a tilde. -/
inductive FreeNames : Json Bytes Scalar -> Prop where
  | null : FreeNames .null
  | scalar (value : Scalar) : FreeNames (.scalar value)
  | array {elements : List (Json Bytes Scalar)} (below : ∀ element ∈ elements, FreeNames element) :
      FreeNames (.array elements)
  | object {members : Bytes -> Option (Json Bytes Scalar)}
      (here : ∀ name value, members name = some value -> slash ∉ name ∧ tilde ∉ name)
      (below : ∀ name value, members name = some value -> FreeNames value) : FreeNames (.object members)

section Free

variable {caseSensitive : Bool}

theorem mem_fold_iff {symbol : UInt8} (isSymbol : symbol.toNat < 65 ∨ 122 < symbol.toNat)
    (fixed : caseFold caseSensitive symbol = symbol) (name : Bytes) :
    symbol ∈ name.map (caseFold caseSensitive) ↔ symbol ∈ name := by
  rw [List.mem_map]
  constructor
  · rintro ⟨byte, inside, same⟩
    rw [← fixed, caseFold_eq_iff isSymbol] at same
    exact same ▸ inside
  · exact fun inside => ⟨symbol, inside, fixed⟩

/-- Case does not make a separator out of another byte. -/
theorem separators_fold_iff (name : Bytes) :
    (slash ∈ name.map (caseFold caseSensitive) ↔ slash ∈ name) ∧
      (tilde ∈ name.map (caseFold caseSensitive) ↔ tilde ∈ name) :=
  ⟨mem_fold_iff (by decide) (by cases caseSensitive <;> decide) name,
    mem_fold_iff (by decide) (by cases caseSensitive <;> decide) name⟩

theorem freeNames_of_plainKeys {item : Item} (plain : item.PlainKeys) :
    FreeNames (item.json caseSensitive) := by
  induction item using Item.induct with
  | node fields child headPrev ih =>
      rcases plain with ⟨here, below⟩
      rw [json]
      cases kind : fields.type_.base with
      | null => exact .null
      | invalid => exact .scalar _
      | false => exact .scalar _
      | true => exact .scalar _
      | number => exact .scalar _
      | string => exact .scalar _
      | raw => exact .scalar _
      | array =>
          refine .array fun element member => ?_
          rw [jsonElements_eq_map] at member
          rcases List.mem_map.mp member with ⟨next, inside, rfl⟩
          exact ih next inside (below next inside)
      | object =>
          refine .object (fun name value there => ?_) (fun name value there => ?_)
          · rcases exists_child_of_jsonMembers there with ⟨next, inside, rfl, _⟩
            have free := here kind next inside
            rw [nameIn, (separators_fold_iff next.key).1, (separators_fold_iff next.key).2]
            exact free
          · rcases exists_child_of_jsonMembers there with ⟨next, inside, _, rfl⟩
            exact ih next inside (below next inside)

/-- A name without bytes to escape is its own token. -/
theorem keepsPlaces_of_free {name : Bytes} (noSlash : slash ∉ name) (noTilde : tilde ∉ name) :
    KeepsPlaces name := by
  have own : escape name = name := by
    rw [escape]
    induction name with
    | nil => rfl
    | cons byte name ih =>
        rw [List.mem_cons, not_or] at noSlash noTilde
        rw [List.flatMap_cons, tokenByte_plain (Ne.symm noSlash.1) (Ne.symm noTilde.1),
          ih noSlash.2 noTilde.2, List.singleton_append]
  rw [KeepsPlaces, own]
  exact fun _ _ there _ => there

theorem keepsPlacesIn_of_free {folded : Bytes} (free : slash ∉ folded ∧ tilde ∉ folded) :
    KeepsPlacesIn caseSensitive folded := by
  rintro name _ rfl
  rw [(separators_fold_iff name).1, (separators_fold_iff name).2] at free
  exact keepsPlaces_of_free free.1 free.2

/-- The names of the children of an object. -/
theorem FreeNames.child {object child : Item} (free : FreeNames (object.json caseSensitive))
    (distinct : object.DistinctKeysIn caseSensitive) (isObject : object.isObject = true)
    (member : child ∈ object.child) :
    KeepsPlacesIn caseSensitive (child.nameIn caseSensitive) ∧ FreeNames (child.json caseSensitive) := by
  rw [json_object isObject] at free
  have there := jsonMembers_of_mem (distinct.names isObject).2 member
  cases free with
  | object here below => exact ⟨keepsPlacesIn_of_free (here _ _ there), below _ _ there⟩

theorem FreeNames.element {array child : Item} (free : FreeNames (array.json caseSensitive))
    (isArray : array.isArray = true) (member : child ∈ array.child) :
    FreeNames (child.json caseSensitive) := by
  rw [json_array isArray] at free
  cases free with
  | array below => exact below _ (List.mem_map_of_mem member)

/-- Of two members one behind the other the names differ. -/
theorem names_ne_of_pair {children : List Item} {earlier later : Item}
    (distinct : (children.map (nameIn caseSensitive)).Nodup)
    (pair : [earlier, later].Sublist children) :
    earlier.nameIn caseSensitive ≠ later.nameIn caseSensitive := by
  have names := (pair.map (nameIn caseSensitive)).nodup distinct
  rw [List.map_cons, List.map_cons, List.map_nil, List.nodup_cons] at names
  exact fun same => names.1 (List.mem_singleton.mpr same)

/-- Without escapes, and with names that differ up to case, all patches find their
places. -/
theorem mendable_of_freeNames {object target : Item} (distinct : object.DistinctKeysIn false)
    (targetDistinct : target.DistinctKeysIn false) (free : FreeNames (object.json false))
    (targetFree : FreeNames (target.json false)) (shallow : target.height ≤ cjsonCircularLimit) :
    Mendable false object target := by
  have lower : ∀ {next : Item}, next ∈ target.child -> next.height ≤ cjsonCircularLimit :=
    fun member => Nat.le_of_lt (height_lt_of_mem member (Nat.lt_succ_of_le shallow))
  induction object using Item.induct generalizing target with
  | node fields child headPrev ih =>
      by_cases replaced : Replaced (.mk fields child headPrev) target
      · exact .replace replaced shallow
      have sameBase := not_not.mp (not_or.mp replaced).1
      cases array : (Item.mk fields child headPrev).isArray with
      | true =>
          have targetArray : target.isArray = true := by rwa [Item.isArray, ← sameBase]
          refine .array array targetArray (fun index element new there newThere => ?_)
            (fun new member => lower (List.mem_of_mem_drop member))
          have member := List.mem_of_getElem? there
          have newMember := List.mem_of_getElem? newThere
          exact ih element member (distinct.child member) (targetDistinct.child newMember)
            (free.element array member) (targetFree.element targetArray newMember) (lower newMember)
            (fun inside => Nat.le_of_lt (height_lt_of_mem inside (Nat.lt_succ_of_le (lower newMember))))
      | false =>
          cases isObject : (Item.mk fields child headPrev).isObject with
          | false => exact .keep replaced array isObject
          | true =>
              have targetObject : target.isObject = true := by rwa [Item.isObject, ← sameBase]
              have names := distinct.names isObject
              refine .object isObject targetObject (fun member inside new newInside _ => ?_)
                (fun new newInside _ => ?_) (fun member inside _ => ?_)
              · exact ih member inside (distinct.child inside) (targetDistinct.child newInside)
                  (free.child distinct isObject inside).2
                  (targetFree.child targetDistinct targetObject newInside).2 (lower newInside)
                  (fun below => Nat.le_of_lt (height_lt_of_mem below (Nat.lt_succ_of_le (lower newInside))))
              · exact ⟨lower newInside, (targetFree.child targetDistinct targetObject newInside).1⟩
              · refine ⟨(free.child distinct isObject inside).1, fun earlier pair same => ?_⟩
                exact absurd same (names_ne_of_pair names.2 pair)

/-- A document can be copied, and the copy has its value. -/
theorem document_copied {item : Item} (shallow : item.height ≤ cjsonCircularLimit)
    (distinct : item.DistinctKeysIn caseSensitive) :
    ∃ copy, cjsonDuplicate item = some copy ∧ copy.WellFormed caseSensitive ∧
      copy.json caseSensitive = item.json caseSensitive := by
  rcases @duplicateRec_eq caseSensitive item 0 (by omega) distinct with ⟨copy, made, copied⟩
  exact ⟨copy, made, copied.wellFormed, copied.json⟩

end Free

/-- Generating patches and applying them without regard to case.  For two documents
whose member names have no `/` or `~` and differ from their siblings' up to case,
and that are not nested deeper than the limit for copies, the patches are made, they
apply to a copy of the first document with status 0, and the result compares equal
to the second one.  It does not matter whether the copy was made before or after the
first document was sorted, nor whether the second one has been. -/
theorem generatePatches_round_trip (from_ to_ : Item) (fromDocument : from_.value?.isSome = true)
    (toDocument : to_.value?.isSome = true) (fromDistinct : from_.DistinctKeysIn false)
    (toDistinct : to_.DistinctKeysIn false) (fromKeys : from_.PlainKeys) (toKeys : to_.PlainKeys)
    (fromShallow : from_.height ≤ cjsonCircularLimit) (toShallow : to_.height ≤ cjsonCircularLimit)
    (addressable : from_.Addressable) :
    ∃ patches fromLeft toLeft, cjsonUtilsGeneratePatches from_ to_ = some (patches, fromLeft, toLeft) ∧
      ∀ source, source = from_ ∨ source = fromLeft ->
        ∃ object result, cjsonDuplicate source = some object ∧
          cjsonUtilsApplyPatches object patches false = some (0, result, patches) ∧
          cjsonCompare result to_ false = true ∧ cjsonCompare result toLeft false = true := by
  have toPlain : Plain (to_.json false) := plain_of_value? toDocument
  rcases generatePatches_run fromDistinct toDistinct (plain_of_value? fromDocument) toPlain addressable with
    ⟨patches, fromLeft, toLeft, made, fromTidy, toTidy, applies⟩
  refine ⟨patches, fromLeft, toLeft, made, fun source isSource => ?_⟩
  have sourceTidy : Tidied false from_ source := by
    rcases isSource with rfl | rfl
    · exact .refl fromDistinct
    · exact fromTidy
  rcases document_copied (sourceTidy.height ▸ fromShallow) sourceTidy.distinct with
    ⟨object, copied, wellFormed, value⟩
  have sameValue := value.trans sourceTidy.json
  have free : FreeNames (object.json false) := sameValue ▸ freeNames_of_plainKeys fromKeys
  have mendable := mendable_of_freeNames wellFormed.distinct toDistinct free
    (freeNames_of_plainKeys toKeys) toShallow
  rcases applies object wellFormed sameValue mendable with ⟨result, applied, resultWellFormed, resultValue⟩
  have resultPlain : Plain (result.json false) := resultValue ▸ toPlain
  refine ⟨object, result, copied, applied, ?_, ?_⟩
  · exact cjsonCompare_of_json resultWellFormed.distinct toDistinct resultValue resultPlain
  · exact cjsonCompare_of_json resultWellFormed.distinct toTidy.distinct (resultValue.trans toTidy.json.symm)
      resultPlain

/-- The object with one scalar member. -/
def scalarMember (base : BaseType) (name : Bytes) : Item :=
  .mk { type_ := { base := .object } } [.mk { type_ := { base := base }, string := some name } [] .null] (.at 0)

private theorem scalarMember_facts (name : Bytes) (free : slash ∉ text name ∧ tilde ∉ text name) :
    (scalarMember .null name).DistinctKeysIn false ∧ (scalarMember .null name).PlainKeys ∧
      (scalarMember .true name).DistinctKeysIn false ∧ (scalarMember .true name).PlainKeys ∧
      (scalarMember .null name).Addressable := by
  have none : ∀ {P : Item -> Prop}, ∀ item ∈ ([] : List Item), P item := fun _ impossible => nomatch impossible
  have only : ∀ {P : Item -> Prop} {child : Item}, P child -> ∀ item ∈ [child], P item := by
    intro P child holds item member
    exact List.mem_singleton.mp member ▸ holds
  refine ⟨?_, ?_, ?_, ?_, ?_⟩
  · exact .mk (fun _ => ⟨only rfl, List.nodup_singleton _⟩)
      (only (.mk (fun impossible => nomatch impossible) none))
  · exact .mk (fun _ => only free) (only (.mk (fun impossible => nomatch impossible) none))
  · exact .mk (fun _ => ⟨only rfl, List.nodup_singleton _⟩)
      (only (.mk (fun impossible => nomatch impossible) none))
  · exact .mk (fun _ => only free) (only (.mk (fun impossible => nomatch impossible) none))
  · exact .mk (by simp) (only (.mk (by simp) none))

/-- From `{"a": null}` to `{"A": true}`. -/
theorem generatePatches_round_trip_otherCase :
    ∃ patches fromLeft toLeft,
      cjsonUtilsGeneratePatches (scalarMember .null [97]) (scalarMember .true [65]) =
        some (patches, fromLeft, toLeft) ∧
      ∀ source, source = scalarMember .null [97] ∨ source = fromLeft ->
        ∃ object result, cjsonDuplicate source = some object ∧
          cjsonUtilsApplyPatches object patches false = some (0, result, patches) ∧
          cjsonCompare result (scalarMember .true [65]) false = true ∧
          cjsonCompare result toLeft false = true := by
  have lower := scalarMember_facts [97] (by decide)
  have upper := scalarMember_facts [65] (by decide)
  exact generatePatches_round_trip _ _ rfl rfl lower.1 upper.2.2.1 lower.2.1 upper.2.2.2.1 (by decide)
    (by decide) lower.2.2.2.2

/-! ## With regard to case -/

section Copied

variable {caseSensitive : Bool}

theorem exists_sublist_of_forall₂ {α β : Type} {related : α -> β -> Prop} {items : List α}
    {others part : List β} (all : List.Forall₂ related items others) (sublist : part.Sublist others) :
    ∃ source, source.Sublist items ∧ List.Forall₂ related source part := by
  induction all generalizing part with
  | nil =>
      rw [List.sublist_nil.mp sublist]
      exact ⟨[], .slnil, .nil⟩
  | @cons item other items others head _ ih =>
      cases sublist with
      | cons _ later =>
          rcases ih later with ⟨source, inside, relates⟩
          exact ⟨source, .cons _ inside, relates⟩
      | cons_cons _ later =>
          rcases ih later with ⟨source, inside, relates⟩
          exact ⟨item :: source, .cons_cons _ inside, .cons head relates⟩

theorem forall₂_getElem? {α β : Type} {related : α -> β -> Prop} {items : List α} {others : List β}
    (all : List.Forall₂ related items others) {index : Nat} {other : β} (there : others[index]? = some other) :
    ∃ item, items[index]? = some item ∧ related item other := by
  induction all generalizing index with
  | nil => cases there
  | cons head _ ih =>
      cases index with
      | zero =>
          cases there
          exact ⟨_, rfl, head⟩
      | succ index => exact ih there

/-- Copying does not matter for a pair of members. -/
theorem gone_copy {to_ : List Item} {item copy : Item} (copied : CopyOf caseSensitive item copy) :
    Gone caseSensitive to_ copy ↔ Gone caseSensitive to_ item :=
  ⟨fun gone => gone.congr copied.nameIn.symm copied.json.symm, fun gone => gone.congr copied.nameIn copied.json⟩

/-- The patches find their places in a copy if they find them in the original, since a
copy has the names and the order of it. -/
theorem Mendable.duplicate {item copy target : Item} {depth : Nat}
    (mendable : Mendable caseSensitive item target) (distinct : item.DistinctKeysIn caseSensitive)
    (shallow : item.height + depth ≤ cjsonCircularLimit) (made : duplicateRec item depth = some copy) :
    Mendable caseSensitive copy target := by
  induction item using Item.induct generalizing depth copy target with
  | node fields child headPrev ih =>
      rcases duplicateRec_eq shallow distinct with ⟨other, otherMade, copied⟩
      rw [made] at otherMade
      cases otherMade
      have replacedIff := @replaced_congr caseSensitive copy (.mk fields child headPrev) target copied.json
      have sameBase := copied.base
      rw [duplicateRec] at made
      rcases Option.bind_eq_some_iff.mp made with ⟨copies, copiesMade, same⟩
      cases same
      have below : ∀ next ∈ child, next.height + (depth + 1) ≤ cjsonCircularLimit := by
        intro next member
        have := height_lt_heightBelow member
        rw [height] at shallow
        omega
      have all : List.Forall₂ (fun next copy => next ∈ child ∧ duplicateRec next (depth + 1) = some copy ∧
          CopyOf caseSensitive next copy) child copies := by
        refine ((List.forall₂_and_left _ _).mpr ⟨fun next member => member, forall₂_of_duplicateChildren
          copiesMade⟩).imp fun next copy parts => ⟨parts.1, parts.2, ?_⟩
        rcases duplicateRec_eq (below next parts.1) (distinct.child parts.1) with ⟨other, otherMade, nextCopied⟩
        rw [parts.2] at otherMade
        cases otherMade
        exact nextCopied
      have names := (Copies.children (all.imp fun _ _ parts => parts.2.2.copies)).2.2.1
      have original : ∀ {copy : Item}, copy ∈ copies -> ∃ next ∈ child,
          duplicateRec next (depth + 1) = some copy ∧ CopyOf caseSensitive next copy := by
        intro copy member
        rcases List.mem_iff_getElem?.mp member with ⟨index, there⟩
        rcases forall₂_getElem? all there with ⟨next, _, inside, parts⟩
        exact ⟨next, inside, parts⟩
      cases mendable with
      | replace replaced shallow => exact .replace (replacedIff.mpr replaced) shallow
      | keep same notArray notObject => exact .keep (mt replacedIff.mp same) notArray notObject
      | array array targetArray elements appended =>
          refine .array array targetArray (fun index element new there newThere => ?_) ?_
          · rcases forall₂_getElem? all there with ⟨next, nextThere, inside, nextMade, _⟩
            exact ih next inside (elements index next new nextThere newThere) (distinct.child inside)
              (below next inside) nextMade
          · rw [child_mk, ← all.length_eq]
            exact appended
      | object isObject targetObject members added gone =>
          refine .object isObject targetObject (fun member inside new newInside named => ?_) ?_
            (fun member inside isGone => ⟨?_, fun earlier pair loose => ?_⟩)
          · rcases original inside with ⟨next, nextInside, nextMade, nextCopied⟩
            exact ih next nextInside (members next nextInside new newInside (nextCopied.nameIn.symm.trans named))
              (distinct.child nextInside) (below next nextInside) nextMade
          · rw [child_mk, names]
            exact added
          · rcases original inside with ⟨next, nextInside, _, nextCopied⟩
            rw [nextCopied.nameIn]
            exact (gone next nextInside ((gone_copy nextCopied).mp isGone)).1
          · rcases exists_sublist_of_forall₂ all pair with ⟨source, sourcePair, relates⟩
            cases relates with
            | @cons first _ rest _ firstParts relates =>
                cases relates with
                | @cons second _ rest _ secondParts relates =>
                    cases relates
                    have looseNames : first.nameIn false = second.nameIn false := by
                      rw [← @map_toAsciiLowercase_nameIn caseSensitive first,
                        ← @map_toAsciiLowercase_nameIn caseSensitive second,
                        ← firstParts.2.2.nameIn, ← secondParts.2.2.nameIn, map_toAsciiLowercase_nameIn,
                        map_toAsciiLowercase_nameIn]
                      exact loose
                    have secondGone := (gone_copy secondParts.2.2).mp isGone
                    rcases (gone second secondParts.1 secondGone).2 first sourcePair looseNames with
                      ⟨firstGone, less⟩
                    refine ⟨(gone_copy firstParts.2.2).mpr firstGone, ?_⟩
                    rw [sortKey_eq_iff.mpr firstParts.2.2.nameIn, sortKey_eq_iff.mpr secondParts.2.2.nameIn]
                    exact less

end Copied

/-- Generating patches and applying them with regard to case.  For two documents with
different sibling names the patches are made.  They lead from a copy of the first
document, before or after it has been sorted, to one that compares equal to the
second one, if they find their places in what has been copied. -/
theorem generatePatchesCaseSensitive_round_trip (from_ to_ : Item) (fromDocument : from_.value?.isSome = true)
    (toDocument : to_.value?.isSome = true) (fromDistinct : from_.DistinctKeys)
    (toDistinct : to_.DistinctKeys) (addressable : from_.Addressable) :
    ∃ patches fromLeft toLeft,
      cjsonUtilsGeneratePatchesCaseSensitive from_ to_ = some (patches, fromLeft, toLeft) ∧
      ∀ source, source = from_ ∨ source = fromLeft -> Mendable true source to_ ->
        ∀ object, cjsonDuplicate source = some object ->
        ∃ result, cjsonUtilsApplyPatches object patches true = some (0, result, patches) ∧
          cjsonCompare result to_ true = true ∧ cjsonCompare result toLeft true = true := by
  rw [← distinctKeysIn_true] at fromDistinct toDistinct
  have toPlain : Plain (to_.json true) := plain_of_value? toDocument
  rcases generatePatches_run fromDistinct toDistinct (plain_of_value? fromDocument) toPlain addressable with
    ⟨patches, fromLeft, toLeft, made, fromTidy, toTidy, applies⟩
  refine ⟨patches, fromLeft, toLeft, made, fun source isSource mendable object copied => ?_⟩
  have sourceTidy : Tidied true from_ source := by
    rcases isSource with rfl | rfl
    · exact .refl fromDistinct
    · exact fromTidy
  have shallow := height_le_of_copied copied
  rcases document_copied shallow sourceTidy.distinct with ⟨other, otherCopied, wellFormed, value⟩
  rw [copied] at otherCopied
  cases otherCopied
  have objectMendable := mendable.duplicate sourceTidy.distinct shallow copied
  rcases applies object wellFormed (value.trans sourceTidy.json) objectMendable with
    ⟨result, applied, resultWellFormed, resultValue⟩
  have resultPlain : Plain (result.json true) := resultValue ▸ toPlain
  refine ⟨result, applied, ?_, ?_⟩
  · exact cjsonCompare_of_json resultWellFormed.distinct toDistinct resultValue resultPlain
  · exact cjsonCompare_of_json resultWellFormed.distinct toTidy.distinct (resultValue.trans toTidy.json.symm)
      resultPlain

private theorem scalarMember_distinctKeys (name : Bytes) :
    (scalarMember .null name).DistinctKeys ∧ (scalarMember .true name).DistinctKeys ∧
      (scalarMember .null name).Addressable := by
  have none : ∀ {P : Item -> Prop}, ∀ item ∈ ([] : List Item), P item := fun _ impossible => nomatch impossible
  have only : ∀ {P : Item -> Prop} {child : Item}, P child -> ∀ item ∈ [child], P item := by
    intro P child holds item member
    exact List.mem_singleton.mp member ▸ holds
  refine ⟨?_, ?_, ?_⟩
  · exact .mk (fun _ => ⟨only rfl, List.nodup_singleton _⟩)
      (only (.mk (fun impossible => nomatch impossible) none))
  · exact .mk (fun _ => ⟨only rfl, List.nodup_singleton _⟩)
      (only (.mk (fun impossible => nomatch impossible) none))
  · exact .mk (by simp) (only (.mk (by simp) none))

/-- From `{"~": null}` to `{"~": true}`: the token `~0` is decoded in place. -/
theorem generatePatchesCaseSensitive_round_trip_tilde :
    ∃ patches fromLeft toLeft,
      cjsonUtilsGeneratePatchesCaseSensitive (scalarMember .null [tilde]) (scalarMember .true [tilde]) =
        some (patches, fromLeft, toLeft) ∧
      ∃ object result, cjsonDuplicate (scalarMember .null [tilde]) = some object ∧
        cjsonUtilsApplyPatches object patches true = some (0, result, patches) ∧
        cjsonCompare result (scalarMember .true [tilde]) true = true ∧
        cjsonCompare result toLeft true = true := by
  have facts := scalarMember_distinctKeys [tilde]
  have keeps : KeepsPlacesIn true [tilde] := by
    rw [keepsPlacesIn_true (by decide)]
    intro position byte there plain
    cases position with
    | zero => exact absurd (Option.some_inj.mp there).symm plain
    | succ position => cases there
  have mendable : Mendable true (scalarMember .null [tilde]) (scalarMember .true [tilde]) := by
    refine .object rfl rfl (fun member inside new newInside _ => ?_) (fun new newInside fresh => ?_)
      (fun member inside _ => ⟨?_, fun earlier pair _ => ?_⟩)
    · rw [List.mem_singleton.mp inside, List.mem_singleton.mp newInside]
      exact .replace (Or.inl (by decide)) (by decide)
    · rw [List.mem_singleton.mp newInside] at fresh
      exact absurd (by decide) fresh
    · rw [List.mem_singleton.mp inside]
      exact keeps
    · exact absurd pair.length_le (by simp [scalarMember])
  rcases generatePatchesCaseSensitive_round_trip (scalarMember .null [tilde]) (scalarMember .true [tilde]) rfl
    rfl facts.1 facts.2.1 facts.2.2 with ⟨patches, fromLeft, toLeft, made, runs⟩
  rcases @document_copied true _ (by decide) (distinctKeysIn_true.mpr facts.1) with
    ⟨object, copied, _⟩
  rcases runs _ (Or.inl rfl) mendable object copied with ⟨result, applied, same, sameLeft⟩
  exact ⟨patches, fromLeft, toLeft, made, object, result, copied, applied, same, sameLeft⟩

/-- Make the patches for two documents and apply them to a copy of the first: the
status, and whether the result compares equal to the second. -/
def diffOutcome (from_ to_ : Item) (caseSensitive : Bool) : Option (Nat × Bool) := do
  let (patches, _, to_) ← generatePatches from_ to_ caseSensitive
  let object ← cjsonDuplicate from_
  let (status, result, _) ← cjsonUtilsApplyPatches object patches caseSensitive
  some (status, cjsonCompare result to_ caseSensitive)

/-- From `{"m~n": null}` to `{}` the member is not found, because its token is decoded
to `m~0`.  From `{"A": null, "a": null}` to `{"A": null}` the other member is taken. -/
theorem generated_patches_miss_their_members :
    ((oneMember [109, tilde, 110]).value?.isSome = true ∧ (oneMember [109, tilde, 110]).DistinctKeys ∧
      cjsonCreateObject.value?.isSome = true ∧ cjsonCreateObject.DistinctKeys ∧
      diffOutcome (oneMember [109, tilde, 110]) cjsonCreateObject true = some (13, false)) ∧
    (caseVariants.value?.isSome = true ∧ caseVariants.DistinctKeys ∧
      (oneMember [65]).value?.isSome = true ∧ (oneMember [65]).DistinctKeys ∧
      diffOutcome caseVariants (oneMember [65]) true = some (0, false)) := by
  refine ⟨⟨rfl, (scalarMember_distinctKeys _).1, rfl, ?_, rfl⟩,
    ⟨rfl, caseVariants_distinctKeys, rfl, (scalarMember_distinctKeys _).1, rfl⟩⟩
  exact .mk (fun _ => ⟨(fun _ impossible => nomatch impossible), List.nodup_nil⟩)
    (fun _ impossible => nomatch impossible)

end CJson
