import CJson.HeapShelves

/-!
# Calls are functions on trees

The patch functions have been modelled on trees, as if a call had its tree to
itself.  Here every call on nodes that keeps to the rules is shown to do to the
trees on the shelf what the function on trees does to the one tree it names, so
that what has been proved of trees holds of the nodes that pointers link.
-/

namespace CJson

open CString

namespace Heap

open OrderedForest

variable {library : CLibrary} {heap : Heap} {fieldsOf later : Addr -> Fields} {forest forest' : OrderedForest Addr}
  {shelf : Shelf} {outcome : Outcome} {node place : Addr} {own : Item}

/-- A call ends, and has done to the lists and to the trees what it should.  The lists
are told by `Effect`, as before; the trees by `Rearranges`, which runs the functions
on trees. -/
def Simulates (library : CLibrary) (heap : Heap) (forest : OrderedForest Addr) (shelf : Shelf)
    (operation : Operation) : Prop :=
  Settles (fun fuel => operation.run library fuel heap) fun result => ∃ forest' shelf',
    result.2.Draws forest' ∧ Holds result.2.fieldsOf forest' shelf' ∧
      operation.Effect heap forest forest' result.1 ∧
        operation.Rearranges library heap forest shelf shelf' result.1

/-! ## Searches -/

theorem Shows.atIndex_bind {β : Type} (shows : Shows fieldsOf forest place own) (which : Int)
    {step : Nat -> Option β} (beyond : ∀ position, own.child.length ≤ position -> step position = none) :
    (if which < 0 then none else step which.toNat) =
      (Heap.atIndex forest which place).bind fun node => step ((forest.children place).idxOf node) := by
  by_cases index : which < 0
  · rw [if_pos index, Heap.atIndex, if_pos index]
    rfl
  · have agree := congrArg (Option.bind · step) (shows.atIndex index)
    rw [Option.bind_map] at agree
    rw [if_neg index]
    refine Eq.trans ?_ agree
    split
    · rfl
    · exact beyond _ (Nat.le_of_not_lt ‹_›)

theorem Shows.underName_bind {β : Type} (shows : Shows heap.fieldsOf forest place own) (string : Option Bytes)
    (caseSensitive : Bool) (step : Nat -> Option β) :
    (string.bind fun name => CJson.getObjectItem own name caseSensitive).bind step =
      (heap.underName forest string caseSensitive place).bind
        fun node => step ((forest.children place).idxOf node) := by
  cases string with
  | none => rfl
  | some name =>
      rw [Option.bind_some, shows.getObjectItem, Option.bind_map]
      rfl

theorem detach_beyond (position : Nat) (short : own.child.length ≤ position) :
    CJson.cjsonDetachItemViaPointer own position = none := by
  rw [CJson.cjsonDetachItemViaPointer, List.getElem?_eq_none short]

theorem replace_beyond (added : Item) (position : Nat) (short : own.child.length ≤ position) :
    CJson.cjsonReplaceItemViaPointer own position added = none := by
  rw [CJson.cjsonReplaceItemViaPointer, if_neg (Nat.not_lt.mpr short)]

/-! ## Deleted and renamed trees -/

/-- Deleting a tree takes it off the shelf. -/
theorem Holds.trims (holds : Holds fieldsOf forest shelf) (same : ∀ node ∈ forest.live, later node = fieldsOf node)
    (isRoot : forest.IsRoot node) (trims : Trims forest forest' (forest.Below node)) :
    Holds later forest' (Function.update shelf node none) := by
  constructor
  · intro other
    rw [trims.isRoot_iff isRoot]
    by_cases equal : other = node
    · simp [equal]
    · simp [holds.roots, equal]
  · intro other tree held
    by_cases equal : other = node
    · rw [equal, Function.update_self] at held
      cases held
    · rw [Function.update_of_ne equal] at held
      have otherRoot := (holds.roots other).mp (by rw [held]; rfl)
      apply (holds.shows other tree held).congr
      intro lower below
      refine ⟨trims.lists lower fun gone => ?_, same lower (below.live otherRoot.1)⟩
      exact equal (root_unique otherRoot isRoot below gone)

/-- A tree that has been changed does not matter to the trees without it. -/
theorem Own.of_update {tree : Option Item} (apart : ¬ forest.Below node place)
    (contains : Own forest (Function.update shelf node tree) place own) : Own forest shelf place own := by
  rcases contains with ⟨root, path, item, held, leads, there⟩
  have different : root ≠ node := by
    rintro rfl
    exact apart (below_of_at? leads)
  rw [Function.update_of_ne different] at held
  exact ⟨root, path, item, held, leads, there⟩

/-! ## Items behind the last child -/

theorem addItemToArray_joins (own added : Item) (linked : Linked own.child own.headPrev) :
    CJson.addItemToArray own added =
      some (own.withChildren (own.child.insertIdx (id own.child.length) added) (.at own.child.length)) := by
  rw [id, List.insertIdx_length_self]
  exact addItemToArray_linked linked

/-- An item that has been named first is put into a list.  Naming changes the fields
of one root and no links, so the shelf is the old one with the item renamed on it. -/
theorem Holds.hangsNamed (holds : Holds fieldsOf forest shelf) (finite : forest.live.Finite)
    (canHold : forest.CanHold place node) (change : Fields -> Fields)
    (same : ∀ other ∈ forest.live, later other =
      Function.update fieldsOf node (change (fieldsOf node)) other)
    (adds : Adds forest forest' (some place) (some node) (fun list node => list ++ [node]) outcome) :
    ∃ shelf', Holds later forest' shelf' ∧ Hangs forest shelf shelf' (some place) (some node)
      (fun own added => CJson.addItemToArray own (added.withFields (change added.fields))) outcome := by
  rcases holds.rename finite canHold.root.1 change with ⟨added, named, whole, renamed, holdsNamed⟩
  have onShelf := whole.at_root canHold.root
  cases renamed.at_root canHold.root
  have may : ∀ upper lower, some place = some upper -> some node = some lower -> forest.CanHold upper lower := by
    rintro _ _ ⟨⟩ ⟨⟩
    exact canHold
  rw [appends_eq] at adds
  rcases holdsNamed.hangs finite same may (fun _ => le_rfl) adds addItemToArray_joins with
    ⟨shelf', holds', succeeds, own, new, changed, contains, isNamed, joins, rewritten⟩
  rw [Function.update_self] at isNamed
  cases isNamed
  rw [Function.update_idem] at rewritten
  exact ⟨shelf', holds', succeeds, own, added, changed, contains.of_update canHold.apart, onShelf, joins, rewritten⟩

/-! ## All calls -/

/-- A copy that can be made is the text with the terminator. -/
theorem copyGranted_eq {string : Bytes} (granted : heap.copyGranted string = true) :
    (heap.strdup string).1 = some (cjsonStrdup string) := by
  rcases strdup_copies heap string with ⟨hooks, refused | copied⟩
  · simp [copyGranted, refused] at granted
  · rw [copied]

/-- A constructor lays its tree on the shelf, where no tree with that root was before. -/
theorem Raises.simulates (draws : heap.Draws forest) (holds : Holds heap.fieldsOf forest shelf)
    {run : Nat -> Heap -> Except MemoryFault (Pointer × Heap)} {built : Item -> Prop} (raises : Raises run built) :
    Settles (fun fuel => Heap.returnNode (run fuel heap)) fun result => ∃ forest' shelf',
      result.2.Draws forest' ∧ Holds result.2.fieldsOf forest' shelf' ∧
        (∃ pointer, result.1 = .node pointer ∧ forest.Grown forest' pointer) ∧ Lays shelf shelf' built result.1 :=
  Grows.lays (raises draws (building forest)) holds

theorem createDoubleArray_raises (numbers : List Binary64) :
    Raises (fun fuel heap => cjsonCreateDoubleArray fuel heap numbers)
      (fun tree => tree = branch { type_ := { base := .array } } (numbers.map numberLeaf)) := by
  have raises : ∀ number : Binary64, Raises (fun _ heap => heap.cjsonCreateNumber number)
      (fun tree => tree = numberLeaf number) := fun number => createNode_raises _
  intro heap forest stage represents building
  apply (createNumberArray_raises raises numbers represents building).mono
  rintro result ⟨larger, made, trees⟩
  refine ⟨larger, made, fun top same => ?_⟩
  rcases trees top same with ⟨tree, ⟨children, each, isBranch⟩, shows⟩
  have leaves : List.Forall₂ Eq (numbers.map numberLeaf) children :=
    List.forall₂_map_left_iff.mpr (each.imp fun _ _ => Eq.symm)
  rw [List.forall₂_eq_eq_eq] at leaves
  exact ⟨tree, leaves ▸ isBranch, shows⟩

/-- The calls that do not construct: what they do to lists and fields says what they do
to the trees. -/
theorem Represents.simulates_of_effect (consumes : library.ConsumesAtMost) (draws : heap.Draws forest)
    (shelf : Shelf) {operation : Operation} (promised : operation.Promised heap) (proper : operation.Proper heap)
    (rearranges : ∀ forest' outcome later, operation.Effect heap forest forest' outcome ->
      (∀ node ∈ forest.live, later node = operation.fieldsAfter heap node) ->
        ∃ shelf', Holds later forest' shelf' ∧ operation.Rearranges library heap forest shelf shelf' outcome) :
    Simulates library heap forest shelf operation := by
  apply ((draws.behaves consumes operation promised proper).and
    (draws.keepsFields consumes operation promised proper)).mono
  rintro result ⟨⟨forest', represents, effect⟩, fields⟩
  rcases rearranges forest' result.1 result.2.fieldsOf effect fields with ⟨shelf', holds', rearranged⟩
  exact ⟨forest', shelf', represents, holds', effect, rearranged⟩

theorem addItemToObject_rearranges (draws : heap.Draws forest) (holds : Holds heap.fieldsOf forest shelf)
    {object item : Pointer} {string : Option Name} {constantKey : Bool}
    (promised : (Operation.addItemToObject object string item constantKey).Promised heap)
    (effect : (Operation.addItemToObject object string item constantKey).Effect heap forest forest' outcome)
    (same : ∀ node ∈ forest.live, later node =
      (Operation.addItemToObject object string item constantKey).fieldsAfter heap node) :
    ∃ shelf', Holds later forest' shelf' ∧
      (Operation.addItemToObject object string item constantKey).Rearranges library heap forest
        shelf shelf' outcome := by
  rcases promised with ⟨valid, _, mayHold, _⟩
  have canHold := draws.mayHold valid mayHold
  cases string with
  | none =>
      rcases effect with ⟨failed, rfl⟩
      cases object <;> exact ⟨shelf, holds.congr same, failed, rfl⟩
  | some string =>
      simp only [Operation.Effect] at effect
      simp only [Operation.Rearranges]
      by_cases granted : (constantKey || heap.copyGranted string.bytes) = true
      · simp only [if_pos granted] at effect ⊢
        cases object with
        | none =>
            rcases effect with ⟨failed, rfl⟩
            exact ⟨shelf, holds.congr same, failed, rfl⟩
        | some place =>
            cases item with
            | none =>
                rcases effect with ⟨failed, rfl⟩
                exact ⟨shelf, holds.congr same, failed, rfl⟩
            | some node =>
                have may := canHold place node rfl rfl
                have different : place ≠ node := may.ne.symm
                cases constantKey with
                | true =>
                    simp only [Operation.fieldsAfter, different, if_false, if_true] at same
                    exact holds.hangsNamed draws.finite may (fun fields => { fields with
                      string := some string.bytes
                      type_ := { fields.type_ with stringIsConst := true } }) same effect
                | false =>
                    have copied := copyGranted_eq granted
                    simp only [Operation.fieldsAfter, different, Bool.false_eq_true, if_false, copied] at same
                    exact holds.hangsNamed draws.finite may (fun fields => { fields with
                      string := some (cjsonStrdup string.bytes)
                      type_ := { fields.type_ with stringIsConst := false } }) same effect
      · simp only [if_neg granted] at effect ⊢
        rcases effect with ⟨failed, rfl⟩
        refine ⟨shelf, holds.congr ?_, failed, rfl⟩
        intro node isLive
        rw [same node isLive]
        rw [Bool.not_eq_true, Bool.or_eq_false_iff] at granted
        rcases granted with ⟨rfl, refused⟩
        rw [copyGranted, Option.isSome_eq_false_iff, Option.isNone_iff_eq_none] at refused
        cases object with
        | none => rfl
        | some place => cases item <;> simp [Operation.fieldsAfter, refused]

theorem replaceItemInObject_rearranges (draws : heap.Draws forest) (holds : Holds heap.fieldsOf forest shelf)
    {object replacement : Pointer} {string : Option Name} {caseSensitive : Bool}
    (promised : (Operation.replaceItemInObject object string replacement caseSensitive).Promised heap)
    (effect : (Operation.replaceItemInObject object string replacement caseSensitive).Effect heap
      forest forest' outcome)
    (same : ∀ node ∈ forest.live, later node =
      (Operation.replaceItemInObject object string replacement caseSensitive).fieldsAfter heap node) :
    ∃ shelf', Holds later forest' shelf' ∧ (Operation.replaceItemInObject object string replacement
      caseSensitive).Rearranges library heap forest shelf shelf' outcome := by
  rcases promised with ⟨valid, validReplacement, mayHold, _⟩
  have canHold := draws.mayHold valid mayHold
  cases string with
  | none =>
      rcases effect with ⟨failed, rfl⟩
      exact ⟨shelf, holds.congr same, failed, rfl⟩
  | some string =>
      simp only [Operation.Effect] at effect
      cases replacement with
      | none =>
          have unchanged : outcome = .flag false ∧ forest' = forest := by
            split at effect
            · cases object <;> exact effect
            · exact effect
          rcases unchanged with ⟨failed, rfl⟩
          exact ⟨shelf, holds.congr same, failed, rfl⟩
      | some new =>
          have newLive := draws.valid_live validReplacement new rfl
          simp only [Operation.Rearranges]
          by_cases granted : heap.copyGranted string.bytes = true
          · have copied := copyGranted_eq granted
            simp only [granted, if_true] at effect ⊢
            simp only [Operation.fieldsAfter, copied] at same
            rcases holds.rename draws.finite newLive (fun fields => { fields with
              string := some (cjsonStrdup string.bytes)
              type_ := { fields.type_ with stringIsConst := false } }) with
              ⟨own, named, whole, renamed, holdsNamed⟩
            have found : ∀ place node, object = some place ->
                heap.underName forest (some string.bytes) caseSensitive place = some node ->
                  node ∈ forest.children place := underName_mem
            -- the name of the replacement does not matter to the search
            have searches : ∀ place own added, object = some place ->
                Shows (Function.update heap.fieldsOf new { heap.fieldsOf new with
                  string := some (cjsonStrdup string.bytes)
                  type_ := { (heap.fieldsOf new).type_ with stringIsConst := false } }) forest place own ->
                ((CJson.getObjectItem own string.bytes caseSensitive).bind fun position =>
                  CJson.cjsonReplaceItemViaPointer own position added) =
                (heap.underName forest (some string.bytes) caseSensitive place).bind fun node =>
                  CJson.cjsonReplaceItemViaPointer own ((forest.children place).idxOf node) added := by
              intro place own added isPlace shows
              rw [shows.getObjectItem, Option.bind_map, findMember_congr]
              · rfl
              · intro node inside
                apply Function.update_of_ne
                rintro rfl
                exact (canHold place node isPlace rfl).root.2 place inside
            rcases holdsNamed.givesWay draws.finite same (draws.valid_live valid) canHold found effect searches with
              ⟨shelf', holds', gives⟩
            exact ⟨shelf', holds', own, named, whole, renamed, gives⟩
          · rw [Bool.not_eq_true] at granted
            have refused : (heap.strdup string.bytes).1 = none := by
              rwa [copyGranted, Option.isSome_eq_false_iff, Option.isNone_iff_eq_none] at granted
            simp only [granted, Bool.false_eq_true, if_false] at effect ⊢
            simp only [Operation.fieldsAfter, refused] at same
            rcases effect with ⟨failed, rfl⟩
            rcases holds.rename draws.finite newLive (fun fields => { fields with string := none }) with
              ⟨own, named, whole, renamed, holdsNamed⟩
            exact ⟨named, holdsNamed.congr same, own, named, whole, renamed, failed, rfl⟩

/-- Every call that keeps to the rules does to the trees what the function on trees
does. -/
theorem Represents.simulates (consumes : library.ConsumesAtMost) (draws : heap.Draws forest)
    (holds : Holds heap.fieldsOf forest shelf) (operation : Operation) (promised : operation.Promised heap)
    (proper : operation.Proper heap) : Simulates library heap forest shelf operation := by
  have effects := draws.simulates_of_effect consumes shelf promised proper
  cases operation with
  | createNull => exact Raises.simulates draws holds (createNode_raises _)
  | createTrue => exact Raises.simulates draws holds (createNode_raises _)
  | createFalse => exact Raises.simulates draws holds (createNode_raises _)
  | createBool boolean => exact Raises.simulates draws holds (createNode_raises _)
  | createNumber num => exact Raises.simulates draws holds (createNode_raises _)
  | createString string => exact Raises.simulates draws holds (createText_raises .string string)
  | createRaw raw => exact Raises.simulates draws holds (createText_raises .raw raw)
  | createStringReference string => exact Raises.simulates draws holds (createNode_raises _)
  | createArray => exact Raises.simulates draws holds (createNode_raises _)
  | createObject => exact Raises.simulates draws holds (createNode_raises _)
  | createIntArray numbers => exact Raises.simulates draws holds (createDoubleArray_raises _)
  | createDoubleArray numbers => exact Raises.simulates draws holds (createDoubleArray_raises numbers)
  | createStringArray strings =>
      exact Raises.simulates draws holds
        (createNumberArray_raises (fun string : Option Bytes => createText_raises .string string) strings)
  | parse value later =>
      exact Grows.lays (Settles.of_returns (draws.parse_grows consumes (fun _ _ => rfl) value later)) holds
  | duplicate item recurse =>
      cases item with
      | none =>
          refine effects fun forest' outcome later effect same => ?_
          rcases effect with ⟨nothing, rfl⟩
          exact ⟨shelf, holds.congr same, nothing, rfl⟩
      | some node =>
          have isLive := draws.valid_live promised node rfl
          rcases holds.own draws.finite isLive with ⟨root, path, tree, own, _, held, leads, there, shows⟩
          apply (Grows.lays (draws.duplicate_grows (building forest) isLive shows recurse) holds).mono
          rintro result ⟨forest', shelf', represents, holds', grown, lays⟩
          refine ⟨forest', shelf', represents, holds', grown, ?_⟩
          rcases lays with nothing | ⟨top, copy, isCopy, rest⟩
          · exact Or.inl nothing
          · exact Or.inr ⟨top, copy, ⟨own, ⟨root, path, tree, held, leads, there⟩, isCopy⟩, rest⟩
  | addItemToArray array item =>
      rcases promised with ⟨valid, _, mayHold⟩
      refine effects fun forest' outcome later effect same => ?_
      simp only [Operation.Effect, appends_eq] at effect
      exact holds.hangs draws.finite same (draws.mayHold valid mayHold) (fun _ => le_rfl) effect addItemToArray_joins
  | addItemToObject object string item constantKey =>
      exact effects fun _ _ _ => addItemToObject_rearranges draws holds promised
  | insertItemInArray array which newitem =>
      rcases promised with ⟨valid, _, mayHold⟩
      refine effects fun forest' outcome later effect same => ?_
      simp only [Operation.Effect] at effect
      simp only [Operation.Rearranges]
      by_cases negative : which < 0
      · simp only [if_pos negative] at effect ⊢
        rcases effect with ⟨failed, rfl⟩
        exact ⟨shelf, holds.congr same, failed, rfl⟩
      · simp only [if_neg negative] at effect ⊢
        exact holds.hangs draws.finite same (draws.mayHold valid mayHold) (fun _ => Nat.min_le_right _ _) effect
          fun own added linked => insertItemInArray_linked linked negative
  | detachItemViaPointer parent item =>
      refine effects fun forest' outcome later effect same => ?_
      exact holds.takesOut draws.finite same (draws.valid_live promised.1)
        (fun upper node isParent isItem => (draws.isChild_iff node upper).mp
        (proper upper node isParent isItem)) effect
        fun _ _ _ _ => rfl
  | detachItemFromArray array which =>
      refine effects fun forest' outcome later effect same => ?_
      exact holds.takesOut draws.finite same (draws.valid_live promised) atIndex_mem effect
        fun place own _ shows => shows.atIndex_bind which detach_beyond
  | detachItemFromObject object string caseSensitive =>
      refine effects fun forest' outcome later effect same => ?_
      exact holds.takesOut draws.finite same (draws.valid_live promised) underName_mem effect
        fun place own _ shows => shows.underName_bind string caseSensitive _
  | delete item =>
      refine effects fun forest' outcome later effect same => ?_
      cases item with
      | none =>
          rcases effect with ⟨nothing, rfl⟩
          exact ⟨shelf, holds.congr same, nothing, rfl⟩
      | some node =>
          have isRoot := (draws.detached_iff node).mp (proper node rfl)
          exact ⟨_, holds.trims same isRoot effect.2, effect.1, rfl⟩
  | deleteItemFromArray array which =>
      refine effects fun forest' outcome later effect same => ?_
      exact holds.throwsOut draws.finite same (draws.valid_live promised) atIndex_mem effect
        fun place own _ shows => shows.atIndex_bind which detach_beyond
  | deleteItemFromObject object string caseSensitive =>
      refine effects fun forest' outcome later effect same => ?_
      exact holds.throwsOut draws.finite same (draws.valid_live promised) underName_mem effect
        fun place own _ shows => shows.underName_bind string caseSensitive _
  | replaceItemViaPointer parent item replacement =>
      rcases promised with ⟨valid, _, _, mayHold⟩
      refine effects fun forest' outcome later effect same => ?_
      exact holds.givesWay draws.finite same (draws.valid_live valid) (draws.mayHold valid mayHold)
        (fun upper node isParent isItem => (draws.isChild_iff node upper).mp
        (proper upper node isParent isItem)) effect
        fun _ _ _ _ _ => rfl
  | replaceItemInArray array which newitem =>
      rcases promised with ⟨valid, _, mayHold⟩
      refine effects fun forest' outcome later effect same => ?_
      exact holds.givesWay draws.finite same (draws.valid_live valid) (draws.mayHold valid mayHold) atIndex_mem effect
        fun place own added _ shows => shows.atIndex_bind which (replace_beyond added)
  | replaceItemInObject object string replacement caseSensitive =>
      exact effects fun _ _ _ => replaceItemInObject_rearranges draws holds promised

/-- In every state that lawful calls lead to, each node that is in no list is the root
of a well linked tree, and every further lawful call does to these trees what the
function on trees does to the one it names: the others stay as they are. -/
theorem calls_rearrange_trees (library : CLibrary) (consumes : library.ConsumesAtMost) (heap : Heap)
    (reachable : Reachable library Lawful heap) : ∃ forest, heap.Draws forest ∧
      (∃ shelf, Holds heap.fieldsOf forest shelf) ∧ ∀ shelf, Holds heap.fieldsOf forest shelf ->
        (∀ node item, shelf node = some item -> item.WellLinked) ∧
          ∀ operation : Operation, operation.Promised heap -> operation.Proper heap ->
            Simulates library heap forest shelf operation := by
  rcases reachable.draws consumes with ⟨forest, draws⟩
  refine ⟨forest, draws, exists_holds heap.fieldsOf forest, ?_⟩
  intro shelf holds
  refine ⟨?_, fun operation => draws.simulates consumes holds operation⟩
  intro node item held
  exact (holds.shows node item held).wellLinked

theorem calls_rearrange_trees_fourNodes :
    decimalLibrary.ConsumesAtMost ∧ Reachable decimalLibrary Lawful fourNodes ∧
    ∃ forest, fourNodes.Draws forest ∧
      (∃ shelf, Holds fourNodes.fieldsOf forest shelf) ∧ ∀ shelf, Holds fourNodes.fieldsOf forest shelf ->
        (∀ node item, shelf node = some item -> item.WellLinked) ∧
          ∀ operation : Operation, operation.Promised fourNodes -> operation.Proper fourNodes ->
            Simulates decimalLibrary fourNodes forest shelf operation := by
  have reachable : Reachable decimalLibrary Lawful fourNodes :=
    fourNodes_reachable (fun _ => ⟨⟨trivial, trivial⟩, trivial, trivial⟩)
  exact ⟨decimalLibrary_consumesAtMost, reachable,
    calls_rearrange_trees decimalLibrary decimalLibrary_consumesAtMost fourNodes reachable⟩

end Heap
end CJson
