import CJson.Alike

/-!
# Runs with and without a test

A test that passes leaves the document rearranged.  As long as the later patches are harmless, the
run with the test and the run without it go on alike.
-/

namespace CJson

open CString Item Matching

/-- Every patch of the run is harmless where it is applied.  What comes after a patch
that fails is not asked about, since it is not run. -/
def HarmlessRun (caseSensitive : Bool) : Item -> List Item -> Prop
  | _, [] => True
  | object, patch :: rest => Harmless caseSensitive object patch ∧
      ∀ patched, applyPatch object patch caseSensitive = some patched -> patched.status = 0 ->
        HarmlessRun caseSensitive patched.object rest

section Runs

variable {caseSensitive : Bool} {object other : Item}

/-- Two harmless runs of the same patches on documents that differ in the order of
members: they end with the same status, and the documents still differ in nothing but
the order. -/
theorem applyPatchesLoop_rel {patches : List Item} (same : Rearranged object other)
    (steady : object.Steady caseSensitive) (otherSteady : other.Steady caseSensitive)
    (harmless : HarmlessRun caseSensitive object patches) (otherHarmless : HarmlessRun caseSensitive other patches) :
    Option.Rel (fun run otherRun => otherRun.1 = run.1 ∧ Rearranged run.2.1 otherRun.2.1 ∧
        run.2.1.Steady caseSensitive)
      (applyPatchesLoop object caseSensitive patches) (applyPatchesLoop other caseSensitive patches) := by
  induction patches generalizing object other with
  | nil => exact .some ⟨rfl, same, steady⟩
  | cons patch patches ih =>
      rw [applyPatchesLoop, applyPatchesLoop]
      rcases rel_cases (applyPatch_rel same steady otherSteady harmless.1 otherHarmless.1) with
        ⟨undefined, otherUndefined⟩ | ⟨patched, otherPatched, here, there, alike⟩
      · rw [undefined, otherUndefined]
        exact .none
      · have next := applyPatch_steady steady harmless.1.1 here
        have otherNext := applyPatch_steady otherSteady otherHarmless.1.1 there
        simp only [here, there, Option.bind_eq_bind, Option.bind_some, alike.status]
        by_cases failed : patched.status ≠ 0
        · rw [if_pos failed, if_pos failed]
          exact .some ⟨rfl, alike.object, next⟩
        · rw [if_neg failed, if_neg failed]
          rw [not_not] at failed
          have rests := ih alike.object next otherNext (harmless.2 patched here failed)
            (otherHarmless.2 otherPatched there (alike.status.trans failed))
          exact rel_bind rests fun _ _ run => .some run

/-- What a test does to the document. -/
theorem rearranged_of_test {test : Item} {tested : Patched} (distinct : object.DistinctKeysIn caseSensitive)
    (isTest : decodePatchOperation test caseSensitive = some .test)
    (ran : applyPatch object test caseSensitive = some tested) : Rearranged object tested.object := by
  rw [applyPatch] at ran
  split at ran
  · cases ran
    exact .refl object
  · rename_i pathItem _
    split at ran
    · cases ran
      exact .refl object
    · rw [isTest, Option.bind_eq_bind, Option.bind_some, testPatch] at ran
      cases walked : pathItem.fields.valuestring.bind fun pointer =>
          getItemFromPointer object pointer caseSensitive with
      | none =>
          simp only [walked, Option.bind_none] at ran
          cases ran
          exact .refl object
      | some place =>
          simp only [walked, Option.bind_some] at ran
          split at ran
          · rename_i node value found _
            rcases Option.bind_eq_some_iff.mp ran with ⟨compared, comparison, ran⟩
            rcases Option.bind_eq_some_iff.mp ran with ⟨changed, modified, ran⟩
            cases ran
            rcases Option.bind_eq_some_iff.mp walked with ⟨pointer, _, walked⟩
            rcases rel_cases (getItemFromPointer_rel pointer (.refl object) distinct) with
              ⟨missing, _⟩ | ⟨way, again, here, there, first, last, counterparts⟩
            · cases walked.symm.trans missing
            · cases walked.symm.trans here
              cases walked.symm.trans there
              -- the tree with the node itself is the tree, that with the sorted node the one left
              rcases counterparts.change node compared.a (compareJson_rearranges comparison).1 with
                ⟨unchanged, sorted, same, otherSame, related⟩
              cases same.symm.trans (Item.modify_self found)
              cases otherSame.symm.trans modified
              exact related
          · cases ran
            exact .refl object

end Runs

/-- A test that passes can be left out: the two runs, if their later patches are harmless, end with one
status and one value. -/
theorem passing_test_transparent {document test patches others : Item} {first second : List Item}
    {caseSensitive : Bool} (linked : document.WellLinked) (distinct : document.DistinctKeysIn caseSensitive)
    (isTest : decodePatchOperation test caseSensitive = some .test)
    (patchesArray : patches.isArray = true) (withTest : patches.child = first ++ test :: second)
    (othersArray : others.isArray = true) (withoutTest : others.child = first ++ second)
    (passes : ∀ object rest, applyPatchesLoop document caseSensitive first = some (0, object, rest) ->
      ∃ tested, applyPatch object test caseSensitive = some tested ∧ tested.status = 0)
    (adds : ∀ patch ∈ first, AddsDistinct caseSensitive patch)
    (harmless : ∀ object rest tested, applyPatchesLoop document caseSensitive first = some (0, object, rest) ->
      applyPatch object test caseSensitive = some tested ->
        HarmlessRun caseSensitive object second ∧ HarmlessRun caseSensitive tested.object second) :
    Option.Rel (fun run otherRun => run.1 = otherRun.1 ∧ run.2.1.json true = otherRun.2.1.json true)
      (cjsonUtilsApplyPatches document patches caseSensitive)
      (cjsonUtilsApplyPatches document others caseSensitive) := by
  have steady : document.Steady caseSensitive := .of_wellFormed ⟨linked, distinct⟩
  have exactly : ∀ {item : Item}, item.DistinctKeysIn caseSensitive -> item.DistinctKeysIn true := by
    intro item distinct
    cases caseSensitive with
    | true => exact distinct
    | false => exact distinct.of_false
  have loops : Option.Rel (fun run otherRun : Nat × Item × List Item =>
        run.1 = otherRun.1 ∧ run.2.1.json true = otherRun.2.1.json true)
      (applyPatchesLoop document caseSensitive patches.child)
      (applyPatchesLoop document caseSensitive others.child) := by
    rw [withTest, withoutTest, applyPatchesLoop_concat, applyPatchesLoop_concat]
    cases start : applyPatchesLoop document caseSensitive first with
    | none => exact .none
    | some run =>
        rcases run with ⟨status, object, rest⟩
        rw [Option.bind_some, Option.bind_some]
        by_cases failed : status ≠ 0
        · rw [if_pos failed, if_pos failed]
          exact .some ⟨rfl, rfl⟩
        · rw [if_neg failed, if_neg failed]
          rw [not_not] at failed
          subst failed
          rcases passes object rest start with ⟨tested, ran, passed⟩
          rcases harmless object rest tested start ran with ⟨without, after⟩
          have objectSteady := applyPatchesLoop_steady steady adds start
          have same := rearranged_of_test objectSteady.distinct isTest ran
          have testAdds : AddsDistinct caseSensitive test := by
            intro operation value decoded isAdd
            cases isTest.symm.trans decoded
            rcases isAdd with impossible | impossible <;> cases impossible
          have testedSteady := applyPatch_steady objectSteady testAdds ran
          simp only [applyPatchesLoop, ran, Option.bind_eq_bind, Option.bind_some, passed, ne_eq,
            not_true_eq_false, if_false]
          have runs := applyPatchesLoop_rel same objectSteady testedSteady without after
          rcases rel_cases runs with ⟨missing, otherMissing⟩ | ⟨one, another, here, there, status, related, oneSteady⟩
          · simp only [missing, otherMissing]
            exact .none
          · simp only [here, there, Option.bind_some, Option.map_some]
            exact .some ⟨status, (related.tidied (exactly oneSteady.distinct)).json⟩
  rw [cjsonUtilsApplyPatches, cjsonUtilsApplyPatches, patchesArray, othersArray]
  exact rel_bind loops fun _ _ alike => .some alike

/-! ## An example -/

/-- The array of these patches. -/
def patchArray (patches : List Item) : Item := .mk { type_ := { base := .array } } patches (.ofList patches)

/-- The test that the whole document is `{"a": null, "b": null}`. -/
def rootTest : Item := patchItem testText [] (some (nullMembers [97] [98]))

/-- What the test leaves of `{"b": null, "a": null}`: the members in order, and no tail. -/
def sortedNulls : Item := (nullMembers [97] [98]).withChildren (nullMembers [97] [98]).child .null

theorem sortObject_nullMembers : sortObject (nullMembers [98] [97]) false = sortedNulls := by
  have sorted : sortList (nullMembers [98] [97]).child false = _ := MergeSort.sort_pair rfl
  rw [sortObject]
  simp only [sorted]
  rfl

theorem applyPatch_rootTest :
    applyPatch (nullMembers [98] [97]) rootTest false = some ⟨0, sortedNulls, rootTest⟩ := by
  have compared : compareJson 2 (nullMembers [98] [97]) (namedItem valueName (nullMembers [97] [98])) false =
      some ⟨true, sortedNulls, namedItem valueName (nullMembers [97] [98])⟩ := by
    rw [compareJson]
    simp only [sortObject_nullMembers]
    rfl
  show (compareJson 2 (nullMembers [98] [97]) (namedItem valueName (nullMembers [97] [98])) false >>= _) = _
  rw [compared]
  rfl

/-- Removing `/b` is harmless. -/
theorem harmless_removal (object : Item) : HarmlessRun false object [removal [slash, 98]] := by
  have notAdd : AddsDistinct false (removal [slash, 98]) := by
    intro operation value decoded isAdd
    have isRemove : decodePatchOperation (removal [slash, 98]) false = some .remove := rfl
    cases isRemove.symm.trans decoded
    rcases isAdd with impossible | impossible <;> cases impossible
  refine ⟨⟨notAdd, ?_⟩, fun _ _ _ => trivial⟩
  intro operation path decoded given
  have isRemove : decodePatchOperation (removal [slash, 98]) false = some .remove := rfl
  have isPath : textOf (removal [slash, 98]) pathName false = some [slash, 98] := rfl
  cases isRemove.symm.trans decoded
  cases isPath.symm.trans given
  intro place parent name _ _ _ first _ second _ isFirst isSecond
  exact isFirst.trans isSecond.symm

theorem passing_test_transparent_removal :
    Option.Rel (fun run otherRun => run.1 = otherRun.1 ∧ run.2.1.json true = otherRun.2.1.json true)
      (cjsonUtilsApplyPatches (nullMembers [98] [97]) (patchArray [rootTest, removal [slash, 98]]) false)
      (cjsonUtilsApplyPatches (nullMembers [98] [97]) (patchArray [removal [slash, 98]]) false) := by
  have wellFormed : (nullMembers [98] [97]).WellFormed false := nullMembers_wellFormed (by decide)
  refine @passing_test_transparent (nullMembers [98] [97]) rootTest _ _ [] [removal [slash, 98]] false
    wellFormed.linked wellFormed.distinct rfl rfl rfl rfl rfl ?_ ?_ ?_
  · intro object rest start
    cases start
    exact ⟨_, applyPatch_rootTest, rfl⟩
  · exact fun patch impossible => absurd impossible List.not_mem_nil
  · intro object rest tested start ran
    cases start
    exact ⟨harmless_removal _, harmless_removal _⟩

/-- The patch that adds an empty object at `/c`. -/
def addition : Item := patchItem addText [slash, 99] (some cjsonCreateObject)

/-- Behind the test that passes, the member that is added gets lost. -/
theorem passing_test_loses_member :
    (nullMembers [98] [97]).WellLinked ∧ (nullMembers [98] [97]).DistinctKeysIn false ∧
      decodePatchOperation rootTest false = some .test ∧
      applyPatch (nullMembers [98] [97]) rootTest false = some ⟨0, sortedNulls, rootTest⟩ ∧
      ∃ withTest withoutTest patches others,
        cjsonUtilsApplyPatches (nullMembers [98] [97]) (patchArray ([] ++ rootTest :: [addition])) false =
            some (0, withTest, patches) ∧
        cjsonUtilsApplyPatches (nullMembers [98] [97]) (patchArray ([] ++ [addition])) false =
            some (0, withoutTest, others) ∧
        withTest.json true ≠ withoutTest.json true := by
  have wellFormed : (nullMembers [98] [97]).WellFormed false := nullMembers_wellFormed (by decide)
  refine ⟨wellFormed.linked, wellFormed.distinct, rfl, applyPatch_rootTest, ?_⟩
  refine ⟨sortedNulls, _, patchArray [rootTest, addition], _, ?_, rfl, ?_⟩
  · show (applyPatchesLoop _ _ (rootTest :: [addition]) >>= _) = _
    rw [applyPatchesLoop, applyPatch_rootTest]
    rfl
  · intro same
    rw [json_object rfl, json_object rfl] at same
    have members := congrFun (Json.object.inj same) [99]
    have missing : jsonMembers true sortedNulls.child [99] = none := rfl
    rw [missing] at members
    cases members

end CJson
