import CJson.Additions
import CJson.Library.PatchRuns
import CJson.Steady

/-!
# Patches that remove, replace and move

The node that `detach_path` takes out is looked up without regard to case.  Where
no member has the name of the last token in another case only, taking it out is
the `remove` of RFC 6902, and a `replace` and a `move` add a value afterwards.  So
a whole list of patches does what RFC 6902 says.
-/

namespace CJson

open CString Item

/-! ## Taking a value out -/

/-- Where the parent is an object, no member has the name of the last token in another
case only.  The code removes without regard to case, and with such a member about it
may remove that. -/
def NoVariant (document : Json Bytes Scalar) (front : List Bytes) (last : Bytes) : Prop :=
  ∀ members name, document.get? arrayIndex? front = some (.object members) ->
    (members name).isSome = true -> SameName false name last -> name = last

section Taking

variable {document node : Item} {front : List Bytes} {last : Bytes} {place : Item.Path}

theorem PlainToken.foldName_eq {token : Bytes} (plain : PlainToken token) : foldName true token = token := by
  rw [foldName, text_eq_self plain.zero]
  exact List.map_id token

/-- Without variants, both lookups find the same member. -/
theorem getObjectItem_eq_of_noVariant (distinct : DistinctNamesIn true node.child) (plain : PlainToken last)
    (noVariant : ∀ member ∈ node.child, SameName false (member.nameIn true) last -> member.nameIn true = last) :
    getObjectItem node last false = getObjectItem node last true := by
  rw [getObjectItem_eq_findIdx distinct.1, getObjectItem_eq_findIdx distinct.1]
  apply findIdx?_congr
  intro member inside
  rw [Bool.eq_iff_iff, decide_eq_true_iff, decide_eq_true_iff, plain.foldName_eq, foldName,
    text_eq_self plain.zero]
  have exact : member.nameIn true = member.key := List.map_id _
  rw [exact]
  constructor
  · intro same
    have equal := noVariant member inside (by rw [exact]; exact same)
    rwa [exact] at equal
  · intro same
    rw [nameIn, same]

/-- What `detach_path` does to the parent: it takes out what the value has behind the
token, or nothing if there is nothing.  No other member may differ from the token only
in case, since the lookup would take the first of them. -/
theorem detachChild_erases (wellFormed : node.WellFormed true) (plain : PlainToken last)
    (reads : node.isArray = true -> ReadsIndex last ∨ last = dash)
    (noVariant : node.isObject = true -> ∀ member ∈ node.child,
      SameName false (member.nameIn true) last -> member.nameIn true = last) :
    (detachChild node last = none ∧ (node.json true).erase? arrayIndex? last = none) ∨
      ∃ position item rest, detachChild node last = some (position, item, rest) ∧
        item.WellFormed true ∧ rest.WellFormed true ∧ rest.fields = node.fields ∧
        (node.json true).next? arrayIndex? last = some (item.json true) ∧
        (node.json true).erase? arrayIndex? last = some (rest.json true) := by
  by_cases array : node.isArray = true
  · rw [detachChild, if_pos array, decodeArrayIndexFromPointer_token plain (reads array), json_array array,
      Json.erase?, Json.next?]
    cases read : arrayIndex? last with
    | none => exact Or.inl ⟨rfl, rfl⟩
    | some index =>
        simp only [Option.bind_some, detachItemFromArray, List.length_map]
        cases there : node.child[index]? with
        | none =>
            left
            have beyond := List.getElem?_eq_none_iff.mp there
            refine ⟨?_, if_neg (Nat.not_lt.mpr beyond)⟩
            rw [cjsonDetachItemViaPointer, there]
            rfl
        | some item =>
            right
            rcases cjsonDetachItemViaPointer_eq_some there with ⟨rest, detached⟩
            rcases cjsonDetachItemViaPointer_wellFormed wellFormed detached with ⟨_, tidy, children, fields⟩
            refine ⟨index, item, rest, by rw [detached]; rfl,
              wellFormed.child (List.mem_of_getElem? there), tidy, fields,
              ?_, ?_⟩
            · rw [List.getElem?_map, there, Option.map_some]
            · rw [if_pos (List.getElem?_eq_some_iff.mp there).1, json_array (isArray_congr array fields), children,
                List.eraseIdx_map]
  · rw [detachChild, if_neg array]
    by_cases object : node.isObject = true
    · have same := getObjectItem_eq_of_noVariant (wellFormed.distinct.names object) plain (noVariant object)
      rw [if_pos object, cjsonDetachItemFromObject, cjsonGetObjectItem, same]
      cases found : getObjectItem node last true with
      | none =>
          left
          have absent := member_absent wellFormed object found
          rw [plain.foldName_eq] at absent
          rw [json_object object, Json.member_object] at absent
          rw [json_object object, Json.erase?, absent]
          exact ⟨rfl, rfl⟩
      | some position =>
          right
          rcases member_detached wellFormed object found with
            ⟨item, rest, detached, itemTidy, there, tidy, fields, value⟩
          rw [plain.foldName_eq, json_object object, Json.member_object] at there value
          refine ⟨position, item, rest, by simp only [detached, Option.map_some], itemTidy, tidy, fields, ?_, ?_⟩
          · rw [json_object object]
            exact there
          · rw [json_object object, Json.erase?, there, value]
            rfl
    · left
      rw [if_neg object]
      refine ⟨rfl, ?_⟩
      cases read : node.json true with
      | null => rfl
      | scalar value => rfl
      | array elements => exact absurd (json_isArray_iff.mp ⟨elements, read⟩) array
      | object members => exact absurd (json_isObject_iff.mp ⟨members, read⟩) object

theorem ReadsIndices.replaced {value changed new : Json Bytes Scalar} (reads : ReadsIndices value (front ++ [last]))
    (replaced : value.replace? arrayIndex? front new = some changed)
    (same : ∀ parent, value.get? arrayIndex? front = some parent -> (∃ elements, new = .array elements) ->
      ∃ elements, parent = .array elements) : ReadsIndices changed (front ++ [last]) := by
  induction front generalizing value changed with
  | nil =>
      cases replaced
      refine ⟨fun array => reads.1 (same value rfl array), fun _ _ => trivial⟩
  | cons token front hypothesis =>
      rw [Json.replace?_cons] at replaced
      rcases Option.bind_eq_some_iff.mp replaced with ⟨next, there, replaced⟩
      rcases Option.map_eq_some_iff.mp replaced with ⟨below, changes, rfl⟩
      rw [List.cons_append] at reads ⊢
      refine ⟨fun array => reads.1 ?_, fun found isFound => ?_⟩
      · -- an exchange leaves an array an array
        cases value with
        | null => cases there
        | scalar value => cases there
        | array elements => exact ⟨elements, rfl⟩
        | object members =>
            rcases array with ⟨_, impossible⟩
            cases impossible
      · rw [Json.next?_exchange there] at isFound
        cases isFound
        apply hypothesis (reads.2 next there) changes
        intro parent found
        apply same parent
        rw [Json.get?, there, Option.bind_some, found]

/-- `detach_path`, for a path of plain tokens, is the `remove` of RFC 6902.  The
document that is left has the same arrays on the way, so the path may be read there
once more. -/
theorem detachPath_removes {path : Bytes} (wellFormed : document.WellFormed true)
    (plain : ∀ token ∈ front ++ [last], PlainToken token)
    (reads : ReadsIndices (document.json true) (front ++ [last]))
    (noVariant : NoVariant (document.json true) front last) (ends : text path = tokensText (front ++ [last])) :
    (detachPath document path true = none ∧ (document.json true).remove? arrayIndex? front last = none) ∨
      ∃ place item rest, detachPath document path true = some (place, item, rest) ∧
        item.WellFormed true ∧ rest.WellFormed true ∧
        (document.json true).get? arrayIndex? (front ++ [last]) = some (item.json true) ∧
        (document.json true).remove? arrayIndex? front last = some (rest.json true) ∧
        ReadsIndices (rest.json true) (front ++ [last]) := by
  have frontPlain : ∀ token ∈ front, PlainToken token :=
    fun token member => plain token (List.mem_append_left _ member)
  have lastPlain := plain last (List.mem_append_right _ (List.mem_singleton.mpr rfl))
  have step : lastStep document path true =
      (followPointer true (tokensText front) document).bind fun parentPath =>
        (document.at? parentPath).map fun parent => (parentPath, parent, last) := by
    rw [lastStep, cjsonUtilsStrdup, ends, tokensText_concat,
      splitPointer_append _ (zero_not_mem_tokensText frontPlain) lastPlain.slash, Option.bind_some,
      decodePointerInplace_eq_self lastPlain.zero lastPlain.tilde, getItemFromPointer_tokensText]
  rw [detachPath_eq, step]
  rcases followPointer_tokens wellFormed frontPlain reads.front with
    ⟨walked, absent⟩ | ⟨place, node, walked, reaches⟩
  · left
    rw [walked, Json.remove?, absent]
    exact ⟨rfl, rfl⟩
  · rw [walked, Option.bind_some, reaches.at?, Option.map_some, Option.bind_some, Json.remove?, reaches.get?]
    simp only [Option.bind_eq_bind, Option.bind_some]
    have noVariantHere : node.isObject = true -> ∀ member ∈ node.child,
        SameName false (member.nameIn true) last -> member.nameIn true = last := by
      intro object member inside same
      refine noVariant (jsonMembers true node.child) _ (by rw [reaches.get?, json_object object]) ?_ same
      rw [jsonMembers_of_mem (reaches.wellFormed.distinct.names object).2 inside]
      rfl
    rcases detachChild_erases reaches.wellFormed lastPlain
      (fun array => reads.last reaches.get? (json_isArray_iff.mpr array)) noVariantHere with
      ⟨taken, erased⟩ | ⟨position, item, rest, taken, itemTidy, tidy, fields, there, erased⟩
    · left
      rw [taken, erased]
      exact ⟨rfl, rfl⟩
    · right
      rcases reaches.modify rest fields with ⟨changed, modified, _, linked, replaced⟩
      have detached : detachPath document path true = some (place ++ [position], item, changed) := by
        rw [detachPath_eq, step, walked, Option.bind_some, reaches.at?, Option.map_some, Option.bind_some, taken,
          Option.bind_some, modified, Option.map_some]
      have steady := steady_detachPath (.of_wellFormed wellFormed) detached
      rw [taken, erased, Option.bind_some, Option.bind_some, modified, Option.map_some]
      refine ⟨_, item, changed, rfl, itemTidy, ⟨linked tidy.linked, steady.2.distinct⟩, ?_, replaced, ?_⟩
      · rw [Json.get?_append, reaches.get?, Option.bind_some, Json.get?, there]
        rfl
      · apply reads.replaced replaced
        intro parent found array
        cases reaches.get?.symm.trans found
        rw [json_isArray_iff] at array ⊢
        exact isArray_congr array fields.symm

end Taking

/-! ## What a patch asks for -/

/-- The member of a patch that holds the pointer of these tokens.  The tokens are
plain: neither the decoder nor the splitting of the path has anything to do on them. -/
def GivesTokens (patch : Item) (name : Bytes) (tokens : List Bytes) (pointer : Bytes) : Prop :=
  (∃ item, getMember patch name true = some item ∧ item.isString = true ∧
      item.fields.valuestring = some pointer) ∧
    text pointer = tokensText tokens ∧ ∀ token ∈ tokens, PlainToken token

/-- The member of a patch that holds a value to put in: it can be copied, and it is a
value of distinct names. -/
def GivesValue (patch : Item) (new : Json Bytes Scalar) : Prop :=
  ∃ value, getMember patch valueName true = some value ∧ value.height ≤ cjsonCircularLimit ∧
    value.DistinctKeysIn true ∧ value.json true = new

/-- What a patch asks for, where the document is such that the program does not
mistake it.  Only an addition and a replacement may have an empty path; a copy may
take the whole document, but has to put it somewhere below.  Whatever is taken out
must have no sibling whose name differs in case alone, and indices must be such as the
code can read. -/
inductive Asks (document patch : Item) : Json.Operation Bytes Scalar -> Prop where
  | whole {new : Json Bytes Scalar} {operation : PatchOperation} {path : Bytes}
      (decoded : decodePatchOperation patch true = some operation) (puts : operation = .add ∨ operation = .replace)
      (target : GivesTokens patch pathName [] path) (given : GivesValue patch new) :
      Asks document patch (.whole new)
  | add {front : List Bytes} {last path : Bytes} {new : Json Bytes Scalar}
      (decoded : decodePatchOperation patch true = some .add)
      (target : GivesTokens patch pathName (front ++ [last]) path) (given : GivesValue patch new)
      (reads : ReadsIndices (document.json true) (front ++ [last])) :
      Asks document patch (.add front last new)
  | remove {front : List Bytes} {last path : Bytes}
      (decoded : decodePatchOperation patch true = some .remove)
      (target : GivesTokens patch pathName (front ++ [last]) path)
      (reads : ReadsIndices (document.json true) (front ++ [last]))
      (noVariant : NoVariant (document.json true) front last) :
      Asks document patch (.remove front last)
  | replace {front : List Bytes} {last path : Bytes} {new : Json Bytes Scalar}
      (decoded : decodePatchOperation patch true = some .replace)
      (target : GivesTokens patch pathName (front ++ [last]) path) (given : GivesValue patch new)
      (reads : ReadsIndices (document.json true) (front ++ [last]))
      (noVariant : NoVariant (document.json true) front last) :
      Asks document patch (.replace front last new)
  | move {fromFront front : List Bytes} {fromLast last pointer path : Bytes}
      (decoded : decodePatchOperation patch true = some .move)
      (source : GivesTokens patch fromName (fromFront ++ [fromLast]) pointer)
      (target : GivesTokens patch pathName (front ++ [last]) path)
      (sourceReads : ReadsIndices (document.json true) (fromFront ++ [fromLast]))
      (noVariant : NoVariant (document.json true) fromFront fromLast)
      (reads : ∀ rest, (document.json true).remove? arrayIndex? fromFront fromLast = some rest ->
        ReadsIndices rest (front ++ [last])) :
      Asks document patch (.move fromFront fromLast front last)
  | copy {sourceTokens front : List Bytes} {last pointer path : Bytes}
      (decoded : decodePatchOperation patch true = some .copy)
      (source : GivesTokens patch fromName sourceTokens pointer)
      (target : GivesTokens patch pathName (front ++ [last]) path)
      (sourceReads : ReadsIndices (document.json true) sourceTokens)
      (reads : ReadsIndices (document.json true) (front ++ [last]))
      (shallow : ∀ place node, getItemFromPointer document pointer true = some place ->
        document.at? place = some node -> node.height ≤ cjsonCircularLimit) :
      Asks document patch (.copy sourceTokens front last)

/-- An attempt that should come to a value, if to any: its status and its result.  It
succeeds if and only if there is a value, and the result is well formed again, so that
the next patch can be asked the same. -/
structure ComesTo (expected : Option (Json Bytes Scalar)) (status : Nat) (result : Item) : Prop where
  accepted : status = 0 ↔ expected.isSome = true
  value : status = 0 -> expected = some (result.json true)
  wellFormed : status = 0 -> result.WellFormed true

theorem ComesTo.failed {expected : Option (Json Bytes Scalar)} {status : Nat} {result : Item} (failed : status ≠ 0)
    (none : expected = none) : ComesTo expected status result where
  accepted := by
    rw [none]
    exact iff_of_false failed Bool.false_ne_true
  value success := absurd success failed
  wellFormed success := absurd success failed

theorem ComesTo.done {expected : Option (Json Bytes Scalar)} {result : Item} (wellFormed : result.WellFormed true)
    (value : expected = some (result.json true)) : ComesTo expected 0 result where
  accepted := by
    rw [value]
    exact iff_of_true rfl rfl
  value _ := value
  wellFormed _ := wellFormed

section Asking

variable {document patch : Item} {operation : PatchOperation} {tokens front : List Bytes} {last path : Bytes}
variable {new : Json Bytes Scalar}

theorem GivesTokens.notRoot (gives : GivesTokens patch pathName (front ++ [last]) path) : first path ≠ 0 := by
  rw [Ne, ← text_eq_nil_iff, gives.2.1, tokensText_concat]
  exact List.append_ne_nil_of_right_ne_nil _ (List.cons_ne_nil _ _)

/-- Below the root, the operation decides. -/
theorem applyPatch_below (decoded : decodePatchOperation patch true = some operation)
    (known : operation ≠ .invalid ∧ operation ≠ .test)
    (gives : GivesTokens patch pathName (front ++ [last]) path) :
    applyPatch document patch true = applyAtPath document patch operation path true := by
  rcases gives.1 with ⟨item, given, isString, stored⟩
  have below : ¬ (first path = 0 ∧ operation ≠ .move ∧ operation ≠ .copy) := fun root => gives.notRoot root.1
  rw [applyPatch, given]
  simp only [isString, decoded, stored, Bool.not_true, Bool.false_eq_true, if_false, Option.bind_eq_bind,
    Option.bind_some]
  cases operation with
  | invalid => exact absurd rfl known.1
  | test => exact absurd rfl known.2
  | add => simp only [if_neg below]
  | remove => simp only [if_neg below]
  | replace => simp only [if_neg below]
  | move => simp only [if_neg below]
  | copy => simp only [if_neg below]

/-- The copy of the value that a patch brings. -/
theorem GivesValue.copied (gives : GivesValue patch new) :
    ∃ value copy, getMember patch valueName true = some value ∧ cjsonDuplicate value = some copy ∧
      copy.WellFormed true ∧ copy.json true = new := by
  rcases gives with ⟨value, given, shallow, distinct, rfl⟩
  rcases @duplicateRec_eq true value 0 shallow distinct with ⟨copy, made, copied⟩
  exact ⟨value, copy, given, made, copied.wellFormed, copied.json⟩

/-- The end of `apply_patch` keeps the trees in order, and comes to what RFC 6902 says
of adding the value there. -/
theorem addToPath_comesTo {value : Item} (wellFormed : document.WellFormed true) (tidy : value.WellFormed true)
    (gives : GivesTokens patch pathName (front ++ [last]) path)
    (reads : ReadsIndices (document.json true) (front ++ [last])) :
    ∃ status result, addToPath document path value true = some (status, result) ∧
      ComesTo ((document.json true).add? arrayIndex? dash front last (value.json true)) status result := by
  rcases @addToPath_adds document value front last path wellFormed gives.2.2 reads gives.2.1 with
    ⟨status, result, ran, adds⟩
  have steady := steady_addToPath (.of_wellFormed wellFormed) (.of_wellFormed tidy) ran
  exact ⟨status, result, ran, adds.accepted, adds.added,
    fun success => ⟨adds.linked success tidy.linked, steady.distinct⟩⟩

theorem addValue_comesTo (wellFormed : document.WellFormed true) (value : GivesValue patch new)
    (gives : GivesTokens patch pathName (front ++ [last]) path)
    (reads : ReadsIndices (document.json true) (front ++ [last])) :
    ∃ status result, addValue document patch path true = some ⟨status, result, patch⟩ ∧
      ComesTo ((document.json true).add? arrayIndex? dash front last new) status result := by
  rcases value.copied with ⟨value, copy, given, made, tidy, rfl⟩
  rcases addToPath_comesTo wellFormed tidy gives reads with ⟨status, result, ran, comes⟩
  refine ⟨status, result, ?_, comes⟩
  rw [addValue, given]
  simp only [made, ran, Option.bind_eq_bind, Option.bind_some]

/-- Each operation but `test` does what RFC 6902 says: status 0 if it has a result,
and then the document of that value. -/
theorem applyPatch_comesTo {asked : Json.Operation Bytes Scalar} (wellFormed : document.WellFormed true)
    (asks : Asks document patch asked) :
    ∃ status result, applyPatch document patch true = some ⟨status, result, patch⟩ ∧
      ComesTo (asked.result? arrayIndex? dash (document.json true)) status result := by
  cases asks with
  | @whole new operation path decoded puts target value =>
      rcases target.1 with ⟨item, given, isString, stored⟩
      rcases value.copied with ⟨value, copy, valueGiven, made, tidy, rfl⟩
      have root : first path = 0 := text_eq_nil_iff.mp target.2.1
      refine ⟨0, copy.withFields { copy.fields with string := none }, ?_, .done (tidy.withFields rfl) ?_⟩
      · rw [applyPatch, given]
        simp only [isString, decoded, stored, Bool.not_true, Bool.false_eq_true, if_false, Option.bind_eq_bind,
          Option.bind_some]
        rcases puts with rfl | rfl
        · simp [root, overwriteRoot, valueGiven, made]
        · simp [root, overwriteRoot, valueGiven, made]
      · rw [Json.Operation.result?]
        congr 1
        exact json_congr rfl ⟨rfl, rfl⟩ rfl rfl rfl
  | @add front last path new decoded target value reads =>
      rcases addValue_comesTo wellFormed value target reads with ⟨status, result, ran, comes⟩
      refine ⟨status, result, ?_, comes⟩
      rw [applyPatch_below decoded (by decide) target]
      exact ran
  | @remove front last path decoded target reads noVariant =>
      rw [applyPatch_below decoded (by decide) target, applyAtPath, Json.Operation.result?]
      rcases detachPath_removes wellFormed target.2.2 reads noVariant target.2.1 with
        ⟨taken, removed⟩ | ⟨place, item, rest, taken, _, tidy, _, removed, _⟩
      · rw [taken]
        exact ⟨13, document, rfl, .failed (by decide) removed⟩
      · rw [taken]
        exact ⟨0, rest, rfl, .done tidy removed⟩
  | @replace front last path new decoded target value reads noVariant =>
      rw [applyPatch_below decoded (by decide) target, applyAtPath, Json.Operation.result?]
      have unread : arrayIndex? dash = none := by decide
      rcases detachPath_removes wellFormed target.2.2 reads noVariant target.2.1 with
        ⟨taken, removed⟩ | ⟨place, item, rest, taken, _, tidy, _, removed, restReads⟩
      · -- there is nothing to replace where there is nothing to remove
        rw [taken]
        refine ⟨13, document, rfl, .failed (by decide) ?_⟩
        have absent : ((document.json true).remove? arrayIndex? front last).isSome = _ :=
          Json.remove?_isSome _ front last
        rw [removed, Option.isSome_none, eq_comm, Option.isSome_eq_false_iff, Option.isNone_iff_eq_none,
          Json.get?_append] at absent
        rw [Json.replace?_concat]
        cases found : (document.json true).get? arrayIndex? front with
        | none => rfl
        | some parent =>
            rw [found, Option.bind_some, Json.get?] at absent
            rw [Option.bind_some]
            cases there : parent.next? arrayIndex? last with
            | none => rfl
            | some next =>
                rw [there] at absent
                cases absent
      · rw [taken, ← Json.add?_remove? unread removed]
        exact addValue_comesTo tidy value target restReads
  | @move fromFront front fromLast last pointer path decoded source target sourceReads noVariant reads =>
      rcases source.1 with ⟨item, given, isString, stored⟩
      have opens : applyPatch document patch true = transferValue document patch .move path true :=
        applyPatch_below decoded (by decide) target
      rw [opens, transferValue, given, Json.Operation.result?]
      simp only [isString, stored, Bool.not_true, Bool.false_eq_true, if_false, if_true]
      rcases detachPath_removes wellFormed source.2.2 sourceReads noVariant source.2.1 with
        ⟨taken, removed⟩ | ⟨place, value, rest, taken, itemTidy, tidy, found, removed, _⟩
      · rw [taken, removed]
        refine ⟨5, document, rfl, .failed (by decide) ?_⟩
        cases (document.json true).get? arrayIndex? (fromFront ++ [fromLast]) <;> rfl
      · rcases addToPath_comesTo tidy itemTidy target (reads _ removed) with ⟨status, result, ran, comes⟩
        rw [taken, found, removed]
        refine ⟨status, result, ?_, comes⟩
        simp only [ran, Option.bind_eq_bind, Option.bind_some]
  | @copy tokens front last pointer path decoded source target sourceReads reads shallow =>
      rcases source.1 with ⟨item, given, isString, stored⟩
      have walk : getItemFromPointer document pointer true = followPointer true (tokensText tokens) document := by
        rw [← getItemFromPointer_text, source.2.1, getItemFromPointer_tokensText]
      have opens : applyPatch document patch true = transferValue document patch .copy path true :=
        applyPatch_below decoded (by decide) target
      rw [opens, transferValue, given, Json.Operation.result?]
      simp only [isString, stored, Bool.not_true, Bool.false_eq_true, if_false, reduceCtorEq, Option.bind_some, walk]
      rcases followPointer_tokens wellFormed source.2.2 sourceReads with
        ⟨walked, absent⟩ | ⟨place, node, walked, reaches⟩
      · rw [walked, absent]
        exact ⟨5, document, rfl, .failed (by decide) rfl⟩
      · have nodeShallow := shallow place node (walk.trans walked) reaches.at?
        rcases @duplicateRec_eq true node 0 nodeShallow reaches.wellFormed.distinct with ⟨copy, made, copied⟩
        rcases addToPath_comesTo wellFormed copied.wellFormed target reads with ⟨status, result, ran, comes⟩
        rw [copied.json] at comes
        rw [walked, reaches.get?]
        refine ⟨status, result, ?_, comes⟩
        simp only [Option.bind_some, reaches.at?, cjsonDuplicate, made, ran, Option.bind_eq_bind]

end Asking

/-! ## Runs -/

/-- What a list of patches asks for, each of the document that the ones before it
leave.  Nothing is asked behind a patch that fails. -/
inductive AllAsk : Item -> List Item -> List (Json.Operation Bytes Scalar) -> Prop where
  | nil {document : Item} : AllAsk document [] []
  | cons {document patch : Item} {patches : List Item} {asked : Json.Operation Bytes Scalar}
      {others : List (Json.Operation Bytes Scalar)} (asks : Asks document patch asked)
      (afterwards : ∀ result, applyPatch document patch true = some ⟨0, result, patch⟩ ->
        AllAsk result patches others) : AllAsk document (patch :: patches) (asked :: others)

/-- The loop goes on as long as the operations do, by induction along the patches. -/
theorem applyPatchesLoop_comesTo {document : Item} {patches : List Item}
    {asked : List (Json.Operation Bytes Scalar)} (wellFormed : document.WellFormed true)
    (asks : AllAsk document patches asked) :
    ∃ status result, applyPatchesLoop document true patches = some (status, result, patches) ∧
      ComesTo (Json.run? arrayIndex? dash (document.json true) asked) status result := by
  induction asks with
  | nil => exact ⟨0, _, rfl, .done wellFormed rfl⟩
  | @cons document patch patches asked others asks afterwards hypothesis =>
      rcases applyPatch_comesTo wellFormed asks with ⟨status, object, ran, comes⟩
      rw [applyPatchesLoop, ran, Json.run?]
      simp only [Option.bind_eq_bind, Option.bind_some]
      by_cases success : status = 0
      · subst success
        rcases hypothesis object ran (comes.wellFormed rfl) with ⟨status, result, loop, comesAfter⟩
        refine ⟨status, result, ?_, ?_⟩
        · simp [loop]
        · rw [comes.value rfl, Option.bind_some]
          exact comesAfter
      · refine ⟨status, object, if_pos success, .failed success ?_⟩
        rw [Option.not_isSome_iff_eq_none.mp (mt comes.accepted.mpr success)]
        rfl

/-- With regard to case, a list of patches without `test` does to the whole document what
RFC 6902 says of the operations, one after the other. -/
theorem cjsonUtilsApplyPatches_comesTo (document patches : Item) (asked : List (Json.Operation Bytes Scalar))
    (wellFormed : document.WellFormed true) (isArray : patches.isArray = true)
    (asks : AllAsk document patches.child asked) :
    ∃ status result, cjsonUtilsApplyPatches document patches true = some (status, result, patches) ∧
      ComesTo (Json.run? arrayIndex? dash (document.json true) asked) status result := by
  rcases applyPatchesLoop_comesTo wellFormed asks with ⟨status, result, loop, comes⟩
  refine ⟨status, result, ?_, comes⟩
  rw [cjsonUtilsApplyPatches, isArray, Bool.not_true, if_neg Bool.false_ne_true, loop]
  exact congrArg (fun same => some (status, result, same)) (eta patches)

/-- `[{"op": "remove", "path": "/a"}, {"op": "add", "path": "/c", "value": {"a": null, "b": null}}]` on
`{"a": null, "b": null}`. -/
theorem cjsonUtilsApplyPatches_comesTo_nullMembers :
    ∃ status result, cjsonUtilsApplyPatches (nullMembers [97] [98])
        (.mk { type_ := { base := .array } } [patchItem removeText [slash, 97] none,
          patchItem addText [slash, 99] (some (nullMembers [97] [98]))] (.at 1)) true =
          some (status, result, .mk { type_ := { base := .array } } [patchItem removeText [slash, 97] none,
            patchItem addText [slash, 99] (some (nullMembers [97] [98]))] (.at 1)) ∧
      ComesTo (Json.run? arrayIndex? dash ((nullMembers [97] [98]).json true)
        [.remove [] [97], .add [] [99] ((namedItem valueName (nullMembers [97] [98])).json true)]) status result := by
  have plain : ∀ byte ∈ ([97, 99] : Bytes), ∀ token ∈ [] ++ [[byte]], PlainToken token := by
    intro byte letter token member
    rw [List.mem_singleton.mp member]
    rcases List.mem_cons.mp letter with rfl | last
    · exact ⟨by decide, by decide, by decide⟩
    · rw [List.mem_singleton.mp last]
      exact ⟨by decide, by decide, by decide⟩
  have removes : Asks (nullMembers [97] [98]) (patchItem removeText [slash, 97] none) (.remove [] [97]) := by
    refine .remove (decodePatchOperation_patchItem _ _ _).2.1
      ⟨⟨_, getMember_patchItem_path _ _ _ _, rfl, rfl⟩, rfl, plain 97 (by decide)⟩
      ⟨fun array => (nomatch array), fun _ _ => trivial⟩ ?_
    intro members name found present same
    cases found
    have inside := not_not.mp (mt jsonMembers_eq_none_iff.mpr (Option.isSome_iff_ne_none.mp present))
    rcases List.mem_cons.mp inside with rfl | later
    · rfl
    · rw [List.mem_singleton.mp later] at same
      cases same
  have valueTidy : (nullMembers [97] [98]).WellFormed true := nullMembers_wellFormed (by decide)
  have named : (namedItem valueName (nullMembers [97] [98])).WellFormed true := valueTidy.withFields rfl
  refine cjsonUtilsApplyPatches_comesTo _ _ _ valueTidy rfl (.cons removes ?_)
  intro result ran
  have left : applyPatch (nullMembers [97] [98]) (patchItem removeText [slash, 97] none) true =
      some ⟨0, .mk { type_ := { base := .object } }
        [.mk { type_ := { base := .null }, string := some [98] } [] .null] (.at 0),
          patchItem removeText [slash, 97] none⟩ := rfl
  cases left.symm.trans ran
  exact .cons (.add (decodePatchOperation_patchItem _ _ _).1
    ⟨⟨_, getMember_patchItem_path _ _ _ _, rfl, rfl⟩, rfl, plain 99 (by decide)⟩
    ⟨namedItem valueName (nullMembers [97] [98]), getMember_patchItem_value _ _ _ _, by decide,
      named.distinct, rfl⟩
    ⟨fun array => (nomatch array), fun _ _ => trivial⟩) fun _ _ => .nil

end CJson
