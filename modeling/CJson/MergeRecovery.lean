import CJson.MergeBack

/-!
# Merging the generated patch

The generator keeps what its turns contribute in one patch, name by name; merging it
into the first document comes out at the second one exactly if every turn of every
name meets its condition.
-/

namespace CJson

open CString Item Lockstep

section Members

variable {caseSensitive generator : Bool}

/-! ## All the names together -/

/-- Names that are equal to the byte are equal in every mode. -/
theorem nameIn_of_byBytes {old new : Item} (same : byBytes old new = 0) :
    old.nameIn caseSensitive = new.nameIn caseSensitive := by
  rw [nameIn, nameIn, key, key, cstrCmp_eq_zero.mp same]

/-- The entries of one name are those of the turns of this name, in the order of the
turns. -/
theorem filter_flatMap_entries {steps : List (Turn Item Item × List Item)} {name : Bytes}
    (named : ∀ step ∈ steps, ∀ entry ∈ step.2, entry.nameIn caseSensitive = turnName caseSensitive step.1) :
    ((steps.flatMap Prod.snd).filter fun entry => entry.nameIn caseSensitive = name) =
      (steps.filter fun step => turnName caseSensitive step.1 = name).flatMap Prod.snd := by
  induction steps with
  | nil => rfl
  | cons step steps ih =>
      rw [List.forall_mem_cons] at named
      rw [List.flatMap_cons, List.filter_append, ih named.2]
      by_cases here : turnName caseSensitive step.1 = name
      · rw [List.filter_cons_of_pos (by simpa using here), List.flatMap_cons]
        congr 1
        rw [List.filter_eq_self]
        intro entry inside
        exact decide_eq_true ((named.1 entry inside).trans here)
      · rw [List.filter_cons_of_neg (by simpa using here)]
        have none : (step.2.filter fun entry => entry.nameIn caseSensitive = name) = [] := by
          rw [List.filter_eq_nil_iff]
          intro entry inside same
          exact here ((named.1 entry inside).symm.trans (of_decide_eq_true same))
        rw [none, List.nil_append]

/-- The patch brings the members of the one object to those of the other exactly if all
turns meet the condition. -/
theorem recovered_iff {as bs : List Item} {steps : List (Turn Item Item × List Item)}
    (turns : steps.map Prod.fst = walk byBytes as bs)
    (contributes : ∀ step ∈ steps, Contributes caseSensitive generator step.1 step.2)
    (named : ∀ step ∈ steps, ∀ entry ∈ step.2, entry.nameIn caseSensitive = turnName caseSensitive step.1)
    (lefts : (as.map (nameIn caseSensitive)).Nodup) (rights : (bs.map (nameIn caseSensitive)).Nodup) :
    Json.Like Scalar.Close
        (.object (patchedMembers caseSensitive (steps.flatMap Prod.snd) (jsonMembers caseSensitive as)))
        (.object (jsonMembers caseSensitive bs)) ↔
      Recovers caseSensitive generator (walk byBytes as bs) := by
  have agree : ∀ old ∈ as, ∀ new ∈ bs, byBytes old new = 0 ->
      old.nameIn caseSensitive = new.nameIn caseSensitive := fun _ _ _ _ same => nameIn_of_byBytes same
  rw [Json.like_object_iff, recovers_iff_filter]
  apply forall_congr'
  intro name
  have ofName : (steps.filter fun step => turnName caseSensitive step.1 = name).map Prod.fst =
      (walk byBytes as bs).filter fun turn => turnName caseSensitive turn = name := by
    rw [← turns, List.filter_map]
    rfl
  have passage := passage_filter lefts rights agree name
  have before := @filterMap_left?_filter _ _ _ (nameIn caseSensitive) (nameIn caseSensitive)
    (walk byBytes as bs) _ name
  have after := @filterMap_right?_filter _ _ _ (nameIn caseSensitive) (nameIn caseSensitive)
    (walk byBytes as bs) _ name
    (fun old new member => agree old (mem_left member rfl) new (mem_right member rfl) (compare_of_both member))
  rw [filterMap_left?] at before
  rw [filterMap_right?] at after
  rw [patchedMembers_filter, filter_flatMap_entries named, jsonMembers_eq_head? bs, ← after, ← ofName]
  apply Contributes.passed
  · rw [ofName]
    exact passage
  · intro step member
    exact contributes step (List.mem_of_mem_filter member)
  · intro step member
    exact of_decide_eq_true (List.mem_filter.mp member).2
  · intro step member entry inside
    exact (named step (List.mem_of_mem_filter member) entry inside).trans
      (of_decide_eq_true (List.mem_filter.mp member).2)
  · rw [ofName, before, jsonMembers_eq_head?]

end Members

/-! ## One level -/

section Levels

variable {caseSensitive generator : Bool} {from_ to_ : Item}

/-- What merging the patch makes of the first document; NULL changes nothing. -/
def outcome (caseSensitive : Bool) (from_ : Item) : Option Item -> Json Bytes Scalar
  | none => from_.json caseSensitive
  | some patch => patched caseSensitive patch (some (from_.json caseSensitive))

theorem recoverable_whole_iff (notBoth : to_.isObject = false ∨ from_.isObject = false) :
    Recoverable caseSensitive generator from_ to_ ↔
      to_.height ≤ cjsonCircularLimit ∨ EqualIn caseSensitive from_ to_ := by
  constructor
  · intro recoverable
    cases recoverable with
    | whole _ copied => exact copied
    | members isObject toObject _ _ _ _ =>
        rcases notBoth with impossible | impossible
        · exact absurd (impossible.symm.trans toObject) Bool.false_ne_true
        · exact absurd (impossible.symm.trans isObject) Bool.false_ne_true
  · exact .whole notBoth

theorem recoverable_members_iff (isObject : from_.isObject = true) (toObject : to_.isObject = true) :
    Recoverable caseSensitive generator from_ to_ ↔
      Recovers caseSensitive generator (passing generator from_ to_) := by
  constructor
  · intro recoverable
    cases recoverable with
    | whole notBoth _ =>
        rcases notBoth with impossible | impossible
        · exact absurd (impossible.symm.trans toObject) Bool.false_ne_true
        · exact absurd (impossible.symm.trans isObject) Bool.false_ne_true
    | members _ _ added ordered kept changed =>
        exact ⟨added, ordered, fun old new member => ⟨kept old new member, changed old new member⟩⟩
  · intro recovers
    exact .members isObject toObject recovers.added recovers.ordered
      (fun old new member => (recovers.met old new member).1) (fun old new member => (recovers.met old new member).2)

/-- The members of an object, sorted. -/
theorem json_sortObject (document : from_.IsDocument) (isObject : from_.isObject = true) :
    from_.json caseSensitive = .object (jsonMembers caseSensitive (sortObject from_ generator).child) := by
  have distinct : from_.DistinctKeysIn caseSensitive := document.distinctIn
  have tidy := tidied_sortObject generator distinct isObject
  rw [← tidy.json]
  exact json_object isObject

/-- A name does not matter for what is merged. -/
theorem patched_namedItem (name : Bytes) (item : Item) (target : Option (Json Bytes Scalar)) :
    patched caseSensitive (namedItem name item) target = patched caseSensitive item target := by
  cases item with
  | mk fields child headPrev =>
      rw [namedItem, withFields, patched, patched]
      rfl

theorem foldName_string (item : Item) :
    foldName caseSensitive (item.string.getD []) = item.nameIn caseSensitive := rfl

/-- What one of the pairs of a level has to have for the whole of it: a patch that can
be merged, that is not `null` by accident, and that leads to the second document if
and only if this can be recovered. -/
structure MergeDiffed (caseSensitive generator : Bool) (from_ to_ : Item) (patch : Option Item) : Prop where
  ready : ∀ entry ∈ patch, MergeReady caseSensitive entry
  present : to_.isNull = false -> ∀ entry ∈ patch, entry.isNull = false
  recovers : Json.Like Scalar.Close (outcome caseSensitive from_ patch) (to_.json caseSensitive) ↔
    Recoverable caseSensitive generator from_ to_

/-- Merging such a value into nothing, or instead of something else, gives the value. -/
theorem mergePatch_whole (noNulls : (to_.json caseSensitive).NoNulls)
    (notBoth : to_.isObject = false ∨ from_.isObject = false) :
    Json.mergePatch (some (from_.json caseSensitive)) (to_.json caseSensitive) = to_.json caseSensitive := by
  rcases notBoth with notObject | notObject
  · apply Json.mergePatch_of_not_object
    intro members same
    exact absurd (notObject.symm.trans (json_isObject_iff.mp ⟨members, same⟩)) Bool.false_ne_true
  · apply Json.mergePatch_of_noNulls noNulls
    apply Json.member_of_not_object
    intro members same
    exact absurd (notObject.symm.trans (json_isObject_iff.mp ⟨members, same⟩)) Bool.false_ne_true

/-- Two nodes that are not both objects. -/
theorem diffed_whole {changed : Item} (same : Rearranged to_ changed) (document : to_.IsDocument)
    (noNulls : (to_.json caseSensitive).NoNulls) (notBoth : to_.isObject = false ∨ from_.isObject = false) :
    MergeDiffed caseSensitive generator from_ to_ (cjsonDuplicate changed) := by
  have distinct : to_.DistinctKeysIn caseSensitive := document.distinctIn
  have tidy := same.tidied distinct
  by_cases shallow : changed.height ≤ cjsonCircularLimit
  · rcases @duplicateRec_eq caseSensitive changed 0 shallow tidy.distinct with ⟨copy, made, copied⟩
    rw [cjsonDuplicate, made]
    refine ⟨?_, ?_, ?_⟩
    · intro entry inside
      cases inside
      exact mergeReady_of_shallow (copied.height.trans_le shallow) copied.wellFormed.distinct
    · intro notNull entry inside
      cases inside
      rw [isNull, copied.base, base, tidy.fields]
      exact notNull
    · apply iff_of_true
      · rw [outcome, patched_eq copied.wellFormed.distinct, copied.json, tidy.json, mergePatch_whole noNulls notBoth]
        exact document.equalIn
      · exact .whole notBoth (Or.inl (tidy.height ▸ shallow))
  · have none : cjsonDuplicate changed = none := by
      cases made : cjsonDuplicate changed with
      | none => rfl
      | some copy => exact absurd (height_le_of_copied made) shallow
    rw [none]
    refine ⟨(fun _ inside => by cases inside), (fun _ _ inside => by cases inside), ?_⟩
    rw [recoverable_whole_iff notBoth]
    constructor
    · exact Or.inr
    · rintro (impossible | equal)
      · exact absurd (tidy.height.trans_le impossible) shallow
      · exact equal

/-! ## Turns -/

theorem MergeReady.namedItem {item : Item} (ready : MergeReady caseSensitive item) (name : Bytes) :
    MergeReady caseSensitive (namedItem name item) := by
  cases item with
  | mk fields child headPrev =>
      cases ready with
      | whole notObject shallow distinct =>
          refine .whole notObject shallow ?_
          cases distinct with
          | mk here below => exact .mk here below
      | members isObject named below => exact .members isObject named below

/-- What the turn on a pair of members comes to, if the second one is a rearrangement
of the first one on either side.  The pair has been sorted by the time its turn comes,
but its value has not changed. -/
structure PairDiffed (caseSensitive generator : Bool) (compare : Item -> Item -> Option (Compared Item))
    (generate : Item -> Item -> Option (MergeDiff (Option Item) Item)) (old new oldChanged newChanged : Item)
    (compared : Compared Item) (below : MergeDiff (Option Item) Item) : Prop where
  pairs : Pairs compare generate oldChanged newChanged compared below
  equal : compared.equal = true ↔ AgreeIn generator old new
  diffed : MergeDiffed caseSensitive false old new below.patch

/-- What is known of the members that a turn passes.  A new member is a document
without nulls; two members that meet have the same name, byte by byte, and are
compared and diffed correctly however the sorting has rearranged them. -/
structure TurnDiffed (caseSensitive generator : Bool) (compare : Item -> Item -> Option (Compared Item))
    (generate : Item -> Item -> Option (MergeDiff (Option Item) Item)) (turn : Turn Item Item) : Prop where
  right : ∀ new ∈ turn.right?, new.IsDocument ∧ (new.json caseSensitive).NoNulls ∧ new.isNull = false
  both : ∀ old new, turn = .both old new -> byBytes old new = 0 ∧
    ∀ oldChanged newChanged, Rearranged old oldChanged -> Rearranged new newChanged ->
      ∃ compared below,
        PairDiffed caseSensitive generator compare generate old new oldChanged newChanged compared below

/-- The entries that a turn adds to the patch: none or one, with the name of the
member that is passed, and ready to be merged. -/
structure EntriesOf (caseSensitive generator : Bool) (turn : Turn Item Item) (entries : List Item) : Prop where
  contributes : Contributes caseSensitive generator turn entries
  named : ∀ entry ∈ entries, entry.nameIn caseSensitive = turnName caseSensitive turn
  isNamed : ∀ entry ∈ entries, entry.string.isSome
  ready : ∀ entry ∈ entries, MergeReady caseSensitive entry

theorem EntriesOf.nothing {turn : Turn Item Item} (contributes : Contributes caseSensitive generator turn []) :
    EntriesOf caseSensitive generator turn [] :=
  ⟨contributes, List.forall_mem_nil _, List.forall_mem_nil _, List.forall_mem_nil _⟩

theorem EntriesOf.one {turn : Turn Item Item} {name : Bytes} {item : Item}
    (contributes : Contributes caseSensitive generator turn [CJson.namedItem name item])
    (named : foldName caseSensitive name = turnName caseSensitive turn) (ready : MergeReady caseSensitive item) :
    EntriesOf caseSensitive generator turn [CJson.namedItem name item] := by
  refine ⟨contributes, ?_, ?_, ?_⟩
  · rw [List.forall_mem_singleton, nameIn_namedItem]
    exact named
  · exact List.forall_mem_singleton.mpr rfl
  · exact List.forall_mem_singleton.mpr (ready.namedItem name)

variable {compare : Item -> Item -> Option (Compared Item)}
  {generate : Item -> Item -> Option (MergeDiff (Option Item) Item)}

/-- A member that only the second object has is added: a copy of it, or nothing if it
is too deep. -/
theorem entriesOf_right {new changed : Item} (same : Rearranged new changed) (document : new.IsDocument)
    (noNulls : (new.json caseSensitive).NoNulls) (notNull : new.isNull = false) :
    EntriesOf caseSensitive generator (.right new)
      ((cjsonDuplicate changed).map (CJson.namedItem (changed.string.getD []))).toList := by
  have distinct : new.DistinctKeysIn caseSensitive := document.distinctIn
  have tidy := same.tidied distinct
  by_cases shallow : changed.height ≤ cjsonCircularLimit
  · rcases @duplicateRec_eq caseSensitive changed 0 shallow tidy.distinct with ⟨copy, made, copied⟩
    rw [cjsonDuplicate, made]
    apply EntriesOf.one
    · refine .add (tidy.height ▸ shallow) ?_ ?_ document.equalIn
      · show copy.isNull = false
        rw [isNull, copied.base, base, tidy.fields]
        exact notNull
      · rw [patched_namedItem, patched_eq copied.wellFormed.distinct, copied.json, tidy.json]
        exact Json.mergePatch_of_noNulls noNulls rfl
    · rw [foldName_string]
      exact tidy.nameIn
    · exact mergeReady_of_shallow (copied.height.trans_le shallow) copied.wellFormed.distinct
  · have none : cjsonDuplicate changed = none := by
      cases made : cjsonDuplicate changed with
      | none => rfl
      | some copy => exact absurd (height_le_of_copied made) shallow
    rw [none]
    exact .nothing (.deep (tidy.height ▸ shallow))

/-- Two members of one name are left alone, or patched.  They are left alone if the
comparison finds them equal, and then applying nothing is enough. -/
theorem entriesOf_both {old new oldChanged newChanged : Item} {compared : Compared Item}
    {below : MergeDiff (Option Item) Item} (sameName : byBytes old new = 0) (notNull : new.isNull = false)
    (same : Rearranged new newChanged)
    (pair : PairDiffed caseSensitive generator compare generate old new oldChanged newChanged compared below) :
    EntriesOf caseSensitive generator (.both old new)
      (turnMembers compare generate (.both oldChanged newChanged)) := by
  rw [turnMembers, pair.pairs.compares]
  dsimp only
  by_cases equal : compared.equal = true
  · rw [if_pos equal]
    have agree := pair.equal.mp equal
    apply EntriesOf.nothing
    apply Contributes.keep
    exact ⟨fun equal => ⟨fun _ => equal, fun differ => absurd agree differ⟩, fun meets => meets.1 agree⟩
  · rw [if_neg equal, pair.pairs.generates, Option.bind_some]
    have differ : ¬ AgreeIn generator old new := mt pair.equal.mpr equal
    have decides : Recoverable caseSensitive false old new ↔ Meets caseSensitive generator old new :=
      ⟨fun recoverable => ⟨fun agree => absurd agree differ, fun _ => recoverable⟩, fun meets => meets.2 differ⟩
    have recovers := pair.diffed.recovers.trans decides
    cases patch : below.patch with
    | none =>
        rw [patch] at recovers
        exact .nothing (.keep recovers)
    | some entry =>
        rw [patch] at recovers
        apply EntriesOf.one
        · refine .change (pair.diffed.present notNull entry patch) ?_
          rw [patched_namedItem]
          exact recovers
        · rw [foldName, pair.pairs.newCompared.string, same.string]
          exact (nameIn_of_byBytes sameName).symm
        · exact pair.diffed.ready entry patch

theorem entriesOf_turn {turn changed : Turn Item Item} (related : Turn.Rel Rearranged Rearranged turn changed)
    (known : TurnDiffed caseSensitive generator compare generate turn) :
    EntriesOf caseSensitive generator turn (turnMembers compare generate changed) := by
  cases related with
  | @left old oldChanged same =>
      rw [turnMembers]
      apply EntriesOf.one (.remove rfl)
      · rw [same.string]
        rfl
      · exact .whole rfl (Nat.zero_le _) (.mk (fun impossible => by cases impossible)
          (fun _ impossible => by cases impossible))
  | @right new newChanged same =>
      rcases known.right new rfl with ⟨document, noNulls, notNull⟩
      rw [turnMembers]
      exact entriesOf_right same document noNulls notNull
  | @both old oldChanged new newChanged oldSame newSame =>
      rcases known.both old new rfl with ⟨sameName, pairs⟩
      rcases pairs oldChanged newChanged oldSame newSame with ⟨compared, below, pair⟩
      exact entriesOf_both sameName (known.right new rfl).2.2 newSame pair

/-- The turns with what they add: each turn of the walk over the original lists gets
the entries that the turn over the rearranged lists has added. -/
theorem exists_steps {turns changed : List (Turn Item Item)}
    (related : List.Forall₂ (Turn.Rel Rearranged Rearranged) turns changed)
    (known : ∀ turn ∈ turns, TurnDiffed caseSensitive generator compare generate turn) :
    ∃ steps : List (Turn Item Item × List Item), steps.map Prod.fst = turns ∧
      steps.flatMap Prod.snd = changed.flatMap (turnMembers compare generate) ∧
      ∀ step ∈ steps, EntriesOf caseSensitive generator step.1 step.2 := by
  induction related with
  | nil => exact ⟨[], rfl, rfl, List.forall_mem_nil _⟩
  | @cons turn other turns changed head _ ih =>
      rw [List.forall_mem_cons] at known
      rcases ih known.2 with ⟨steps, passed, entries, each⟩
      refine ⟨(turn, turnMembers compare generate other) :: steps, ?_, ?_, ?_⟩
      · rw [List.map_cons, passed]
      · rw [List.flatMap_cons, List.flatMap_cons, entries]
      · exact List.forall_mem_cons.mpr ⟨entriesOf_turn head known.1, each⟩

/-- The members of the second document. -/
theorem member_noNulls {new : Item} (document : to_.IsDocument) (toObject : to_.isObject = true)
    (noNulls : (to_.json caseSensitive).NoNulls) (member : new ∈ to_.child) :
    (new.json caseSensitive).NoNulls ∧ new.isNull = false := by
  have distinct : to_.DistinctKeysIn caseSensitive := document.distinctIn
  rw [json_object toObject] at noNulls
  have there := jsonMembers_of_mem (distinct.names toObject).2 member
  cases noNulls with
  | object present below =>
      refine ⟨below _ _ there, ?_⟩
      cases isNull : new.isNull with
      | false => rfl
      | true =>
          rw [json_isNull_iff.mpr isNull] at there
          exact absurd there (present _)

/-- Two objects, given what becomes of the pairs of members.  The objects are sorted
in whatever order the comparisons before have left them, and the walk is over the
sorted lists. -/
theorem diffed_members {fromChanged toChanged : Item} (sameFrom : Rearranged from_ fromChanged)
    (sameTo : Rearranged to_ toChanged) (fromDocument : from_.IsDocument) (toDocument : to_.IsDocument)
    (noNulls : (to_.json caseSensitive).NoNulls) (isObject : from_.isObject = true) (toObject : to_.isObject = true)
    (known : ∀ old ∈ from_.child, ∀ new ∈ to_.child, ∀ oldChanged newChanged, Rearranged old oldChanged ->
      Rearranged new newChanged -> ∃ compared below,
        PairDiffed caseSensitive generator compare generate old new oldChanged newChanged compared below)
    (entries : List Item)
    (all : entries = (walk byBytes (sortObject fromChanged generator).child
      (sortObject toChanged generator).child).flatMap (turnMembers compare generate)) :
    MergeDiffed caseSensitive generator from_ to_ (if entries.isEmpty then none else some (objectOf entries)) := by
  have fromNames : DistinctNamesIn generator from_.child := fromDocument.distinctIn.names isObject
  have toNames : DistinctNamesIn generator to_.child := toDocument.distinctIn.names toObject
  have fromPerm := sortObject_child_perm from_ generator
  have toPerm := sortObject_child_perm to_ generator
  have sameNames : ∀ first third second fourth, Rearranged first third -> Rearranged second fourth ->
      byBytes first second = byBytes third fourth := by
    intro first third second fourth one other
    rw [byBytes, byBytes, one.string, other.string]
  have related := walk_rel sameNames (sameFrom.sorted fromNames) (sameTo.sorted toNames)
  have turnsKnown : ∀ turn ∈ passing generator from_ to_,
      TurnDiffed caseSensitive generator compare generate turn := by
    intro turn member
    constructor
    · intro new passes
      have inside := toPerm.mem_iff.mp (mem_right member passes)
      exact ⟨toDocument.child (Or.inr toObject) inside, member_noNulls toDocument toObject noNulls inside⟩
    · rintro old new rfl
      refine ⟨compare_of_both member, ?_⟩
      exact known old (fromPerm.mem_iff.mp (mem_left member rfl)) new (toPerm.mem_iff.mp (mem_right member rfl))
  rcases exists_steps related turnsKnown with ⟨steps, passed, added, each⟩
  rw [← all] at added
  have entry_of : ∀ entry ∈ entries, ∃ step ∈ steps, entry ∈ step.2 := by
    intro entry inside
    rw [← added] at inside
    exact List.mem_flatMap.mp inside
  have value : outcome caseSensitive from_ (if entries.isEmpty then none else some (objectOf entries)) =
      .object (patchedMembers caseSensitive (steps.flatMap Prod.snd)
        (jsonMembers caseSensitive (sortObject from_ generator).child)) := by
    rw [added]
    cases entries with
    | nil => exact json_sortObject fromDocument isObject
    | cons entry rest =>
        rw [List.isEmpty_cons, if_neg Bool.false_ne_true, outcome, patched_object rfl,
          json_sortObject fromDocument isObject,
          Json.member_object]
        rfl
  refine ⟨?_, ?_, ?_⟩
  · intro patch given
    split at given
    · cases given
    · cases given
      refine .members rfl ?_ ?_
      · intro entry inside
        rcases entry_of entry inside with ⟨step, member, from_⟩
        exact (each step member).isNamed entry from_
      · intro entry inside
        rcases entry_of entry inside with ⟨step, member, from_⟩
        exact (each step member).ready entry from_
  · intro _ patch given
    split at given
    · cases given
    · cases given
      rfl
  · rw [value, recoverable_members_iff isObject toObject, json_sortObject toDocument toObject]
    have distinctFrom : from_.DistinctKeysIn caseSensitive := fromDocument.distinctIn
    have distinctTo : to_.DistinctKeysIn caseSensitive := toDocument.distinctIn
    apply recovered_iff passed
    · exact fun step member => (each step member).contributes
    · exact fun step member => (each step member).named
    · exact (fromPerm.map _).nodup_iff.mpr (distinctFrom.names isObject).2
    · exact (toPerm.map _).nodup_iff.mpr (distinctTo.names toObject).2

/-! ## All levels -/

/-- Two members of documents, compared and patched.  The comparison may sort both of
them before they are diffed, which is why the diff is known for every rearrangement. -/
theorem pairDiffed {fuel : Nat} {old new oldChanged newChanged : Item}
    (patches : ∀ oldLast newLast, Rearranged old oldLast -> Rearranged new newLast ->
      ∃ diff, generateMergePatch fuel oldLast newLast false = some diff ∧ Rearranged oldLast diff.from_ ∧
        Rearranged newLast diff.to_ ∧ MergeDiffed caseSensitive false old new diff.patch)
    (oldDocument : old.IsDocument) (newDocument : new.IsDocument) (oldSame : Rearranged old oldChanged)
    (newSame : Rearranged new newChanged) :
    ∃ compared below, PairDiffed caseSensitive generator
      (fun fromChild toChild => compareJson (fromChild.height + 1) fromChild toChild generator)
      (fun fromChild toChild => generateMergePatch fuel fromChild toChild false)
      old new oldChanged newChanged compared below := by
  have oldDistinct : old.DistinctKeysIn generator := oldDocument.distinctIn
  have newDistinct : new.DistinctKeysIn generator := newDocument.distinctIn
  have oldTidy := oldSame.tidied oldDistinct
  have newTidy := newSame.tidied newDistinct
  have oldStored : Json.Only Scalar.Stored (oldChanged.json generator) := by
    rw [oldTidy.json]
    exact (oldDocument.ordinary generator).imp (fun _ ordinary => ordinary.stored)
  have newStored : Json.Only Scalar.Stored (newChanged.json generator) := by
    rw [newTidy.json]
    exact (newDocument.ordinary generator).imp (fun _ ordinary => ordinary.stored)
  rcases compareJson_settles (Nat.lt_succ_self _) oldTidy.distinct newTidy.distinct oldStored newStored with
    ⟨compared, ran, equal⟩
  rw [oldTidy.json, newTidy.json] at equal
  rcases compareJson_rearranges ran with ⟨oldCompared, newCompared⟩
  rcases patches compared.a compared.b (oldSame.trans oldCompared) (newSame.trans newCompared) with
    ⟨below, generated, oldBelow, newBelow, diffed⟩
  exact ⟨compared, below, ⟨ran, generated, oldCompared, newCompared, oldBelow, newBelow⟩, equal, diffed⟩

/-- What `generate_merge_patch` makes of two documents whose members may have changed
places, in either mode. -/
theorem generateMergePatch_diffed (fuel : Nat) :
    ∀ {generator : Bool} {from_ to_ fromChanged toChanged : Item}, Rearranged from_ fromChanged ->
      Rearranged to_ toChanged -> from_.IsDocument -> to_.IsDocument -> (to_.json caseSensitive).NoNulls ->
      from_.height < fuel ->
        ∃ diff, generateMergePatch fuel fromChanged toChanged generator = some diff ∧
          Rearranged fromChanged diff.from_ ∧ Rearranged toChanged diff.to_ ∧
          MergeDiffed caseSensitive generator from_ to_ diff.patch := by
  induction fuel with
  | zero =>
      intro generator from_ to_ fromChanged toChanged _ _ _ _ _ enough
      exact absurd enough (Nat.not_lt_zero _)
  | succ fuel ih =>
      intro generator from_ to_ fromChanged toChanged sameFrom sameTo fromDocument toDocument noNulls enough
      rw [generateMergePatch, sameFrom.isObject, sameTo.isObject]
      by_cases both : from_.isObject = true ∧ to_.isObject = true
      · rcases both with ⟨isObject, toObject⟩
        rw [isObject, toObject, Bool.not_true, Bool.or_false, if_neg Bool.false_ne_true]
        have known : ∀ old ∈ from_.child, ∀ new ∈ to_.child, ∀ oldChanged newChanged, Rearranged old oldChanged ->
            Rearranged new newChanged -> ∃ compared below, PairDiffed caseSensitive generator
              (fun fromChild toChild => compareJson (fromChild.height + 1) fromChild toChild generator)
              (fun fromChild toChild => generateMergePatch fuel fromChild toChild false)
              old new oldChanged newChanged compared below := by
          intro old member new inside oldChanged newChanged oldSame newSame
          have oldDocument := fromDocument.child (Or.inr isObject) member
          have newDocument := toDocument.child (Or.inr toObject) inside
          apply pairDiffed _ oldDocument newDocument oldSame newSame
          intro oldLast newLast oldRearranged newRearranged
          exact ih oldRearranged newRearranged oldDocument newDocument
            (member_noNulls toDocument toObject noNulls inside).1 (height_lt_of_mem member enough)
        have fromChangedObject : fromChanged.isObject = true := sameFrom.isObject.trans isObject
        have toChangedObject : toChanged.isObject = true := sameTo.isObject.trans toObject
        have fromDistinct : from_.DistinctKeysIn generator := fromDocument.distinctIn
        have toDistinct : to_.DistinctKeysIn generator := toDocument.distinctIn
        have fromNames := (sameFrom.tidied fromDistinct).distinct.names fromChangedObject
        have toNames := (sameTo.tidied toDistinct).distinct.names toChangedObject
        have fromPerm := sortObject_child_perm fromChanged generator
        have toPerm := sortObject_child_perm toChanged generator
        rcases @generateMembers_eq _ _ _ [] _ _ (Nat.lt_succ_self _)
          (fun old member => fromNames.1 old (fromPerm.mem_iff.mp member))
          (fun new member => toNames.1 new (toPerm.mem_iff.mp member))
          (fun old member new inside => by
            rcases sameFrom.original (fromPerm.mem_iff.mp member) with ⟨first, firstIn, oldSame⟩
            rcases sameTo.original (toPerm.mem_iff.mp inside) with ⟨second, secondIn, newSame⟩
            rcases known first firstIn second secondIn old new oldSame newSame with ⟨compared, below, pair⟩
            exact ⟨compared, below, pair.pairs⟩) with ⟨fromLeft, toLeft, ran, fromPairs, toPairs⟩
        have diffed := diffed_members sameFrom sameTo fromDocument toDocument noNulls isObject toObject known _ rfl
        refine ⟨⟨_,
          (sortObject fromChanged generator).withChildren fromLeft (sortObject fromChanged generator).headPrev,
          (sortObject toChanged generator).withChildren toLeft (sortObject toChanged generator).headPrev⟩, ?_, ?_, ?_,
          diffed⟩
        · show (generateMembers _ _ _ (objectOf []) _ _ >>= _) = _
          rw [ran, Option.bind_eq_bind, Option.bind_some, List.nil_append]
          have patch : ∀ (entries : List Item) (left right : Item),
              (if entries.isEmpty then some (⟨none, left, right⟩ : MergeDiff (Option Item) Item)
                else some ⟨some (objectOf entries), left, right⟩) =
              some ⟨if entries.isEmpty then none else some (objectOf entries), left, right⟩ := by
            intro entries left right
            split <;> rfl
          exact patch _ _ _
        · exact (rearranged_sortObject fromChangedObject).trans
            (.withChildren (List.Perm.refl _) (fun _ => rfl) fromPairs)
        · exact (rearranged_sortObject toChangedObject).trans
            (.withChildren (List.Perm.refl _) (fun _ => rfl) toPairs)
      · have notBoth : to_.isObject = false ∨ from_.isObject = false := by
          rw [not_and_or, Bool.not_eq_true, Bool.not_eq_true] at both
          exact both.symm
        have whole : (!to_.isObject || !from_.isObject) = true := by
          rcases notBoth with notObject | notObject <;> simp [notObject]
        rw [if_pos whole]
        exact ⟨_, rfl, .refl _, .refl _, diffed_whole sameTo toDocument noNulls notBoth⟩

end Levels

/-! ## There and back -/

/-- The patch that is generated in a mode leads, merged in this mode, from the copy of
the first document to the second one; no patch means that the documents are equal.
`copy` is a duplicate of the first document, made before generating sorts it. -/
def MergesBack (caseSensitive : Bool) (from_ to_ copy : Item) : Prop :=
  ∃ diff, generateMergePatchOf (some from_) (some to_) caseSensitive = some diff ∧
    match diff.patch with
    | none => EqualIn caseSensitive from_ to_
    | some patch => ∃ result, mergePatch (some copy) patch caseSensitive = some ⟨some result, patch⟩ ∧
        EqualIn caseSensitive result to_

/-- What `cJSON_Duplicate` returns is a copy of the document. -/
theorem copyOf_cjsonDuplicate {caseSensitive : Bool} {item copy : Item} (document : item.IsDocument)
    (copied : cjsonDuplicate item = some copy) : CopyOf caseSensitive item copy := by
  have distinct : item.DistinctKeysIn caseSensitive := document.distinctIn
  rcases @duplicateRec_eq caseSensitive item 0 (height_le_of_copied copied) distinct with ⟨other, made, isCopy⟩
  cases copied.symm.trans made
  exact isCopy

/-- The patch leads back from any copy of the first document, which is what `cJSON_Duplicate`
makes, exactly if the second document can be recovered. -/
theorem mergesBack_iff {caseSensitive : Bool} {from_ to_ copy : Item} (fromDocument : from_.IsDocument)
    (toDocument : to_.IsDocument) (noNulls : (to_.json caseSensitive).NoNulls)
    (isCopy : CopyOf caseSensitive from_ copy) :
    MergesBack caseSensitive from_ to_ copy ↔ Recoverable caseSensitive caseSensitive from_ to_ := by
  rcases generateMergePatch_diffed (from_.height + 1) (.refl from_) (.refl to_) fromDocument toDocument noNulls
    (Nat.lt_succ_self _) with ⟨diff, generated, _, _, diffed⟩
  have generates : generateMergePatchOf (some from_) (some to_) caseSensitive =
      some ⟨diff.patch, some diff.from_, some diff.to_⟩ := by
    rw [generateMergePatchOf, generated]
    rfl
  rw [MergesBack, generates, ← diffed.recovers]
  cases patch : diff.patch with
  | none =>
      constructor
      · rintro ⟨_, same, equal⟩
        cases same
        exact equal
      · exact fun equal => ⟨_, rfl, equal⟩
  | some patch =>
      have wellFormed : ∀ item ∈ some copy, item.WellFormed caseSensitive := by
        intro item same
        cases same
        exact isCopy.wellFormed
      rcases (diffed.ready _ (by assumption)).merges (some copy) wellFormed with ⟨result, merged, _, value⟩
      rw [Option.map_some, isCopy.json] at value
      constructor
      · rintro ⟨_, same, reaches⟩
        cases same
        rcases reaches with ⟨again, ran, equal⟩
        rw [merged] at ran
        cases ran
        rw [EqualIn, value] at equal
        exact equal
      · intro like
        refine ⟨_, rfl, result, merged, ?_⟩
        rw [EqualIn, value]
        exact like

/-! ## An example -/

/-- A member that is `true` or `false`. -/
def flag (name : Bytes) (value : BaseType) : Item :=
  .mk { type_ := { base := value }, string := some name } [] .null

/-- The document `{"b": true, "C": true}`. -/
def twoFlags : Item := objectOf [flag [98] .true, flag [67] .true]

/-- The document `{"C": false}`. -/
def oneFlag : Item := objectOf [flag [67] .false]

theorem isDocument_objectOf {members : List Item} (names : DistinctNamesIn false members)
    (below : ∀ member ∈ members, member.IsDocument) : (objectOf members).IsDocument where
  distinct := .mk (fun _ => names) (fun member inside => (below member inside).distinct)
  ordinary := by
    intro caseSensitive
    rw [json_object rfl]
    refine .object ?_
    intro name value there
    rcases exists_child_of_jsonMembers there with ⟨member, inside, _, rfl⟩
    exact (below member inside).ordinary caseSensitive

theorem isDocument_flag (name : Bytes) {value : BaseType} (isFlag : value = .true ∨ value = .false) :
    (flag name value).IsDocument where
  distinct := by
    refine .mk (fun impossible => ?_) (fun _ impossible => nomatch impossible)
    rcases isFlag with rfl | rfl <;> cases impossible
  ordinary := by
    intro caseSensitive
    rcases isFlag with rfl | rfl <;> exact .scalar trivial

theorem isDocument_twoFlags : twoFlags.IsDocument := by
  apply isDocument_objectOf ⟨by decide, by decide⟩
  intro member inside
  rcases List.mem_pair.mp inside with rfl | rfl
  · exact isDocument_flag _ (Or.inl rfl)
  · exact isDocument_flag _ (Or.inl rfl)

theorem isDocument_oneFlag : oneFlag.IsDocument := by
  apply isDocument_objectOf ⟨by decide, by decide⟩
  intro member inside
  rw [List.mem_singleton.mp inside]
  exact isDocument_flag _ (Or.inr rfl)

theorem noNulls_oneFlag (caseSensitive : Bool) : (oneFlag.json caseSensitive).NoNulls := by
  rw [json_object rfl]
  refine .object ?_ ?_
  · intro name there
    rcases exists_child_of_jsonMembers there with ⟨member, inside, _, value⟩
    rw [List.mem_singleton.mp inside] at value
    cases value
  · intro name value there
    rcases exists_child_of_jsonMembers there with ⟨member, inside, _, rfl⟩
    rw [List.mem_singleton.mp inside]
    exact .scalar _

theorem mergesBack_iff_twoFlags : ∃ copy, cjsonDuplicate twoFlags = some copy ∧
    (MergesBack false twoFlags oneFlag copy ↔ Recoverable false false twoFlags oneFlag) := by
  refine ⟨_, rfl, ?_⟩
  exact mergesBack_iff isDocument_twoFlags isDocument_oneFlag (noNulls_oneFlag false)
    (copyOf_cjsonDuplicate isDocument_twoFlags rfl)

/-- The patch adds "C" and deletes it again.  The names are ordered byte by byte and
looked up without regard to case, so the addition comes first and the deletion finds
what has been added. -/
theorem added_then_deleted : twoFlags.IsDocument ∧ oneFlag.IsDocument ∧ (oneFlag.json false).NoNulls ∧
    ∃ diff patch copy result, cjsonUtilsGenerateMergePatch (some twoFlags) (some oneFlag) = some diff ∧
      diff.patch = some patch ∧ cjsonDuplicate twoFlags = some copy ∧
      mergePatch (some copy) patch false = some ⟨some result, patch⟩ ∧ result.child = [] ∧
      ¬ EqualIn false result oneFlag := by
  refine ⟨isDocument_twoFlags, isDocument_oneFlag, noNulls_oneFlag false, ?_⟩
  refine ⟨_, _, _, _, rfl, rfl, rfl, rfl, rfl, ?_⟩
  intro equal
  rw [EqualIn, json_object rfl, json_object rfl, Json.like_object_iff] at equal
  have both := equal [99]
  have missing : jsonMembers false oneFlag.child [99] = some (.scalar .false) := rfl
  rw [missing] at both
  cases both

end CJson
