import CJson.Rewrites
import CJson.Sorted

/-!
# The comparisons agree

`compare_json` sorts two objects and walks along both member lists at once,
`cJSON_Compare` looks members up, and `create_patches` writes down what differs.
On documents the first two decide the same relation, and on any two trees the
first and the last of them take the same pairs for equal.
-/

namespace CJson

open CString Item

section Values

variable {caseSensitive : Bool}

/-- What `compare_json` asks of two nodes that are no containers.  It is laxer than
equality where it looks at the kinds only, as for raw nodes, and stricter where a
string has no text: such a string agrees with nothing, itself included. -/
def Scalar.Agrees : Scalar -> Scalar -> Prop
  | .invalid, .invalid => True
  | .false, .false => True
  | .true, .true => True
  | .number value double, .number other otherDouble => value = other ∧ compareDouble double otherDouble
  | .string (some bytes), .string (some other) => bytes = other
  | .raw _, .raw _ => True
  | _, _ => False

theorem Scalar.Agrees.base {first second : Scalar} (agrees : first.Agrees second) :
    first.base = second.base := by
  cases first with
  | string bytes =>
      cases bytes with
      | none => exact agrees.elim
      | some bytes => cases second <;> first | rfl | exact agrees.elim
  | _ => cases second <;> first | rfl | exact agrees.elim

/-- Among the scalars of documents with small numbers, those that agree are equal. -/
theorem agrees_iff_eq {first second : Scalar} (plain : Plain (.scalar first))
    (otherPlain : Plain (.scalar second)) : first.Agrees second ↔ first = second := by
  rw [← close_iff_eq plain otherPlain]
  cases plain with
  | false => cases otherPlain <;> exact Iff.rfl
  | true => cases otherPlain <;> exact Iff.rfl
  | number fits =>
      cases otherPlain with
      | number otherFits =>
          refine ⟨And.right, fun close => ⟨?_, close⟩⟩
          exact eq_of_compareDouble_ofInt fits otherFits close
      | _ => exact Iff.rfl
  | string => cases otherPlain <;> exact Iff.rfl

/-- A string whose text is not missing, or another scalar.  Only parsed and
constructed strings are known to have one; a caller can take it away. -/
def Scalar.Stored (scalar : Scalar) : Prop := scalar ≠ .string none

theorem Plain.stored {value : Json Bytes Scalar} (plain : Plain value) : Json.Only Scalar.Stored value := by
  refine plain.only.imp fun scalar plain => ?_
  rintro rfl
  cases plain

/-- The walk along two child lists settles when the comparison settles for each pair.
It reports equality if and only if the lists match element by element, names included
where they are compared. -/
theorem compareChildren_settles {names : Item -> Item -> Bool}
    {compare : Item -> Item -> Option (Compared Item)} {alike : Item -> Item -> Prop} {as bs : List Item}
    (settles : ∀ a ∈ as, ∀ b ∈ bs, ∃ compared, compare a b = some compared ∧
      (compared.equal = true ↔ alike a b)) :
    ∃ compared, compareChildren names compare as bs = some compared ∧
      (compared.equal = true ↔ List.Forall₂ (fun a b => names a b = true ∧ alike a b) as bs) := by
  induction as generalizing bs with
  | nil =>
      cases bs with
      | nil => exact ⟨_, rfl, iff_of_true rfl .nil⟩
      | cons b bs => exact ⟨_, rfl, iff_of_false Bool.false_ne_true (fun both => nomatch both)⟩
  | cons a as ih =>
      cases bs with
      | nil => exact ⟨_, rfl, iff_of_false Bool.false_ne_true (fun both => nomatch both)⟩
      | cons b bs =>
          rw [compareChildren]
          by_cases named : names a b = true
          · rcases settles a List.mem_cons_self b List.mem_cons_self with ⟨head, ran, settled⟩
            rw [named, Bool.not_true, if_neg Bool.false_ne_true, ran, Option.bind_eq_bind, Option.bind_some]
            cases equal : head.equal with
            | false =>
                refine ⟨_, if_pos rfl, iff_of_false Bool.false_ne_true (fun both => ?_)⟩
                cases both with
                | cons same _ =>
                    rw [settled.mpr same.2] at equal
                    cases equal
            | true =>
                rcases ih (fun next member other inside =>
                  settles next (List.mem_cons_of_mem _ member) other (List.mem_cons_of_mem _ inside)) with
                  ⟨rest, ranRest, equalRest⟩
                rw [Bool.not_true, if_neg Bool.false_ne_true, ranRest, Option.bind_eq_bind, Option.bind_some]
                refine ⟨_, rfl, ?_⟩
                rw [List.forall₂_cons, equalRest]
                exact (and_iff_right ⟨named, settled.mp equal⟩).symm
          · rw [Bool.not_eq_true] at named
            rw [named, Bool.not_false, if_pos rfl]
            refine ⟨_, rfl, iff_of_false Bool.false_ne_true (fun both => ?_)⟩
            cases both with
            | cons same _ =>
                rw [named] at same
                cases same.1

/-- In one order, members that pair up pair up one by one.  The order leaves a member
of one list no other place than that of its partner, as the names in either list are
different. -/
theorem forall₂_iff_members {alike : Item -> Item -> Prop} {as bs : List Item}
    (orderA : InOrder caseSensitive as) (orderB : InOrder caseSensitive bs) :
    List.Forall₂ (fun a b => a.nameIn caseSensitive = b.nameIn caseSensitive ∧ alike a b) as bs ↔
      (∀ a ∈ as, ∃ b ∈ bs, b.nameIn caseSensitive = a.nameIn caseSensitive ∧ alike a b) ∧
      ∀ b ∈ bs, ∃ a ∈ as, a.nameIn caseSensitive = b.nameIn caseSensitive := by
  constructor
  · intro pairs
    induction pairs with
    | nil => exact ⟨(fun _ impossible => nomatch impossible), (fun _ impossible => nomatch impossible)⟩
    | cons head _ ih =>
        rcases ih (List.pairwise_cons.mp orderA).2 (List.pairwise_cons.mp orderB).2 with ⟨forward, backward⟩
        constructor
        · rw [List.forall_mem_cons]
          refine ⟨⟨_, List.mem_cons_self, head.1.symm, head.2⟩, fun a member => ?_⟩
          rcases forward a member with ⟨b, inside, found⟩
          exact ⟨b, List.mem_cons_of_mem _ inside, found⟩
        · rw [List.forall_mem_cons]
          refine ⟨⟨_, List.mem_cons_self, head.1⟩, fun b inside => ?_⟩
          rcases backward b inside with ⟨a, member, named⟩
          exact ⟨a, List.mem_cons_of_mem _ member, named⟩
  · intro both
    induction as generalizing bs with
    | nil =>
        cases bs with
        | nil => exact .nil
        | cons b bs =>
            rcases both.2 b List.mem_cons_self with ⟨_, impossible, _⟩
            cases impossible
    | cons a as ih =>
        rcases both with ⟨forward, backward⟩
        rcases forward a List.mem_cons_self with ⟨partner, partnerInside, partnerNamed, partnerAlike⟩
        cases bs with
        | nil => cases partnerInside
        | cons b bs =>
            have named : b.nameIn caseSensitive = a.nameIn caseSensitive := by
              rcases backward b List.mem_cons_self with ⟨other, otherInside, otherNamed⟩
              rw [← sortKey_eq_iff]
              apply le_antisymm
              · apply not_lt.mp
                intro smaller
                exact orderB.not_mem smaller (partnerNamed ▸ List.mem_map_of_mem partnerInside)
              · apply not_lt.mp
                intro smaller
                exact orderA.not_mem smaller (otherNamed ▸ List.mem_map_of_mem otherInside)
            have partnerIs : partner = b := by
              rcases List.mem_cons.mp partnerInside with same | later
              · exact same
              · exact absurd (named.trans partnerNamed.symm ▸ List.mem_map_of_mem later) orderB.head_not_mem
            subst partnerIs
            refine .cons ⟨named.symm, partnerAlike⟩ (ih (List.pairwise_cons.mp orderA).2
              (List.pairwise_cons.mp orderB).2 ⟨fun next member => ?_, fun next inside => ?_⟩)
            · rcases forward next (List.mem_cons_of_mem _ member) with ⟨found, inside, same, alike⟩
              rcases List.mem_cons.mp inside with rfl | later
              · exact absurd (named.symm.trans same ▸ List.mem_map_of_mem member) orderA.head_not_mem
              · exact ⟨found, later, same, alike⟩
            · rcases backward next (List.mem_cons_of_mem _ inside) with ⟨found, member, same⟩
              rcases List.mem_cons.mp member with rfl | later
              · exact absurd (named.trans same ▸ List.mem_map_of_mem inside) orderB.head_not_mem
              · exact ⟨found, later, same⟩

theorem only_child {kind : Scalar -> Prop} {item child : Item} (only : Json.Only kind (item.json caseSensitive))
    (distinct : item.DistinctKeysIn caseSensitive) (container : item.isArray = true ∨ item.isObject = true)
    (member : child ∈ item.child) : Json.Only kind (child.json caseSensitive) := by
  rcases container with array | isObject
  · rw [json_array array] at only
    cases only with
    | array below => exact below _ (List.mem_map_of_mem member)
  · rw [json_object isObject] at only
    cases only with
    | object below => exact below _ _ (jsonMembers_of_mem (distinct.names isObject).2 member)

/-- On trees of different names without lost texts `compare_json` is a relation between their
values. -/
theorem compareJson_settles {fuel : Nat} {a b : Item} (enough : a.height < fuel)
    (distinctA : a.DistinctKeysIn caseSensitive) (distinctB : b.DistinctKeysIn caseSensitive)
    (storedA : Json.Only Scalar.Stored (a.json caseSensitive))
    (storedB : Json.Only Scalar.Stored (b.json caseSensitive)) :
    ∃ compared, compareJson fuel a b caseSensitive = some compared ∧
      (compared.equal = true ↔ Json.Like Scalar.Agrees (a.json caseSensitive) (b.json caseSensitive)) := by
  induction fuel generalizing a b with
  | zero => omega
  | succ fuel ih =>
      rw [compareJson]
      by_cases sameBase : a.base = b.base
      · rw [if_neg (not_not.mpr sameBase)]
        have scalars (notNull : a.base ≠ .null) (notArray : a.base ≠ .array) (notObject : a.base ≠ .object) :
            a.json caseSensitive = .scalar (scalarOf a) ∧ b.json caseSensitive = .scalar (scalarOf b) :=
          ⟨json_scalar notNull notArray notObject, json_scalar (sameBase ▸ notNull) (sameBase ▸ notArray)
            (sameBase ▸ notObject)⟩
        have leaf (equal : Bool) (notNull : a.base ≠ .null) (notArray : a.base ≠ .array)
            (notObject : a.base ≠ .object) (decides : equal = true ↔ (scalarOf a).Agrees (scalarOf b)) :
            ∃ compared, some (⟨equal, a, b⟩ : Compared Item) = some compared ∧ (compared.equal = true ↔
              Json.Like Scalar.Agrees (a.json caseSensitive) (b.json caseSensitive)) := by
          refine ⟨_, rfl, ?_⟩
          rw [(scalars notNull notArray notObject).1, (scalars notNull notArray notObject).2,
            Json.like_scalar_iff]
          exact decides
        cases kind : a.base with
        | null =>
            refine ⟨_, rfl, ?_⟩
            rw [json_isNull_iff.mpr (beq_iff_eq.mpr kind), json_isNull_iff.mpr (beq_iff_eq.mpr (sameBase ▸ kind))]
            exact iff_of_true rfl .null
        | array =>
            have arrayA : a.isArray = true := beq_iff_eq.mpr kind
            have arrayB : b.isArray = true := beq_iff_eq.mpr (sameBase ▸ kind)
            rcases @compareChildren_settles (fun _ _ => true) _ _ _ _
              (fun old member new inside => ih (height_lt_of_mem member enough) (distinctA.child member)
                (distinctB.child inside) (only_child storedA distinctA (Or.inl arrayA) member)
                (only_child storedB distinctB (Or.inl arrayB) inside)) with ⟨below, ran, equal⟩
            simp only [ran, Option.bind_eq_bind, Option.bind_some]
            refine ⟨_, rfl, equal.trans ?_⟩
            rw [json_array arrayA, json_array arrayB, Json.like_array_iff, List.forall₂_map_left_iff,
              List.forall₂_map_right_iff]
            simp only [true_and]
        | object =>
            have objectA : a.isObject = true := beq_iff_eq.mpr kind
            have objectB : b.isObject = true := beq_iff_eq.mpr (sameBase ▸ kind)
            have permA := sortObject_child_perm a caseSensitive
            have permB := sortObject_child_perm b caseSensitive
            have pairs : ∀ old ∈ (sortObject a caseSensitive).child,
                ∀ new ∈ (sortObject b caseSensitive).child,
                ∃ compared, compareJson fuel old new caseSensitive = some compared ∧
                  (compared.equal = true ↔
                    Json.Like Scalar.Agrees (old.json caseSensitive) (new.json caseSensitive)) := by
              intro old member new inside
              rw [permA.mem_iff] at member
              rw [permB.mem_iff] at inside
              exact ih (height_lt_of_mem member enough) (distinctA.child member) (distinctB.child inside)
                (only_child storedA distinctA (Or.inr objectA) member)
                (only_child storedB distinctB (Or.inr objectB) inside)
            rcases @compareChildren_settles
              (fun a b => compareStrings a.string b.string caseSensitive == 0) _ _ _ _ pairs with
              ⟨below, ran, equal⟩
            simp only [ran, Option.bind_eq_bind, Option.bind_some]
            refine ⟨_, rfl, equal.trans ?_⟩
            have namesA := distinctNamesIn_perm permA.symm (distinctA.names objectA)
            have namesB := distinctNamesIn_perm permB.symm (distinctB.names objectB)
            rw [json_object objectA, json_object objectB, ← jsonMembers_perm permA namesA.2,
              ← jsonMembers_perm permB namesB.2, like_members_iff namesA.2 namesB.2,
              ← forall₂_iff_members (inOrder_sortObject (distinctA.names objectA))
                (inOrder_sortObject (distinctB.names objectB))]
            apply forall₂_congr_of_mem
            intro old member new inside
            rw [beq_iff_eq, (compareStrings_spec (namesA.1 old member) (namesB.1 new inside)).2]
        | invalid =>
            apply leaf _ (by rw [kind]; decide) (by rw [kind]; decide) (by rw [kind]; decide)
            rw [scalarOf, scalarOf, ← sameBase, kind]
            exact iff_of_true rfl trivial
        | false =>
            apply leaf _ (by rw [kind]; decide) (by rw [kind]; decide) (by rw [kind]; decide)
            rw [scalarOf, scalarOf, ← sameBase, kind]
            exact iff_of_true rfl trivial
        | true =>
            apply leaf _ (by rw [kind]; decide) (by rw [kind]; decide) (by rw [kind]; decide)
            rw [scalarOf, scalarOf, ← sameBase, kind]
            exact iff_of_true rfl trivial
        | raw =>
            apply leaf _ (by rw [kind]; decide) (by rw [kind]; decide) (by rw [kind]; decide)
            rw [scalarOf, scalarOf, ← sameBase, kind]
            exact iff_of_true rfl trivial
        | number =>
            apply leaf _ (by rw [kind]; decide) (by rw [kind]; decide) (by rw [kind]; decide)
            rw [scalarOf, scalarOf, ← sameBase, kind, Bool.and_eq_true, decide_eq_true_iff]
            exact Iff.rfl
        | string =>
            have both := scalars (by rw [kind]; decide) (by rw [kind]; decide) (by rw [kind]; decide)
            rw [both.1, scalarOf, kind] at storedA
            rw [both.2, scalarOf, ← sameBase, kind] at storedB
            cases first : a.fields.valuestring with
            | none =>
                rw [first] at storedA
                cases storedA with
                | scalar here => exact absurd rfl here
            | some aString =>
                cases second : b.fields.valuestring with
                | none =>
                    rw [second] at storedB
                    cases storedB with
                    | scalar here => exact absurd rfl here
                | some bString =>
                    apply leaf _ (by rw [kind]; decide) (by rw [kind]; decide) (by rw [kind]; decide)
                    rw [scalarOf, scalarOf, ← sameBase, kind, first, second, decide_eq_true_iff]
                    exact cstrCmp_eq_zero
      · rw [if_pos sameBase]
        refine ⟨_, rfl, iff_of_false Bool.false_ne_true fun like => ?_⟩
        exact sameBase (base_eq_of_like (fun _ _ agrees => agrees.base) like)

end Values

/-- On documents `compare_json` answers what `cJSON_Compare` answers, and it does so
with the fuel that the callers give it: both decide whether the two have one value. -/
theorem compareJson_eq_cjsonCompare (a b : Item) (caseSensitive : Bool) (readA : a.value?.isSome = true)
    (readB : b.value?.isSome = true) (distinctA : a.DistinctKeysIn caseSensitive)
    (distinctB : b.DistinctKeysIn caseSensitive) :
    ∃ compared, compareJson (a.height + 1) a b caseSensitive = some compared ∧
      compared.equal = cjsonCompare a b caseSensitive := by
  have plainA := @plain_of_value? caseSensitive a readA
  have plainB := @plain_of_value? caseSensitive b readB
  rcases compareJson_settles (Nat.lt_succ_self _) distinctA distinctB plainA.stored plainB.stored with
    ⟨compared, ran, settled⟩
  refine ⟨compared, ran, ?_⟩
  rw [Bool.eq_iff_iff, settled, cjsonCompare_iff_like distinctA distinctB,
    Json.like_iff_eq plainA.only plainB.only fun _ _ => agrees_iff_eq,
    Json.like_iff_eq plainA.only plainB.only fun _ _ => close_iff_eq]

/-- The objects `{"A": null, "a": null}` and `{"a": null, "A": null}`, with regard to case. -/
theorem compareJson_eq_cjsonCompare_nullMembers :
    ∃ compared, compareJson ((nullMembers [65] [97]).height + 1) (nullMembers [65] [97])
        (nullMembers [97] [65]) true = some compared ∧
      compared.equal = cjsonCompare (nullMembers [65] [97]) (nullMembers [97] [65]) true :=
  compareJson_eq_cjsonCompare (nullMembers [65] [97]) (nullMembers [97] [65]) true rfl rfl
    (nullMembers_distinctKeysIn (by decide)) (nullMembers_distinctKeysIn (by decide))

/-! ## Comparing and generating patches

Here the names may repeat or be missing, and the nodes may be of any kind. -/

section Classify

variable {caseSensitive : Bool} {path : Bytes} {create : Bytes -> Item -> Item -> Option (Diffed Item)}
  {compare : Item -> Item -> Option (Compared Item)}

/-- A comparison takes for equal what no patches are made for.  Both walk along the
same pairs of nodes, and so it is enough to say this of every pair on its own. -/
def Classifies (create : Bytes -> Item -> Item -> Option (Diffed Item))
    (compare : Item -> Item -> Option (Compared Item)) : Prop :=
  ∀ path from_ to_ diff, create path from_ to_ = some diff ->
    ∃ compared, compare from_ to_ = some compared ∧ (diff.patches = [] ↔ compared.equal = true)

/-- Any leftover child makes a patch. -/
theorem mapM_ne_nil {α β : Type} {make : α -> Option β} {item : α} {rest : List α} {made : List β}
    (ran : (item :: rest).mapM make = some made) : made ≠ [] := by
  rw [List.mapM_cons] at ran
  rcases Option.bind_eq_some_iff.mp ran with ⟨first, _, ran⟩
  rcases Option.bind_eq_some_iff.mp ran with ⟨others, _, ran⟩
  cases ran
  exact List.cons_ne_nil _ _

/-- One turn of the walks, with the same pair in both.  No patches come out of it and
of the rest if and only if the comparison has found the pair and the rest equal. -/
theorem compareChildren_turn {names : Item -> Item -> Bool} {fromChild toChild : Item}
    {fromRest toRest : List Item} {element : Diffed Item} {rest : Diffed (List Item)}
    {head : Compared Item} {below : Compared (List Item)} (named : names fromChild toChild = true)
    (compared : compare fromChild toChild = some head)
    (classified : element.patches = [] ↔ head.equal = true)
    (ran : compareChildren names compare fromRest toRest = some below)
    (others : rest.patches = [] ↔ below.equal = true) :
    ∃ result, compareChildren names compare (fromChild :: fromRest) (toChild :: toRest) = some result ∧
      (element.patches ++ rest.patches = [] ↔ result.equal = true) := by
  rw [compareChildren, named, Bool.not_true, if_neg Bool.false_ne_true, compared, Option.bind_eq_bind,
    Option.bind_some, List.append_eq_nil_iff, classified, others]
  cases equal : head.equal with
  | false => exact ⟨_, if_pos rfl, iff_of_false (fun both => Bool.false_ne_true both.1) Bool.false_ne_true⟩
  | true =>
      rw [Bool.not_true, if_neg Bool.false_ne_true, ran, Option.bind_eq_bind, Option.bind_some]
      exact ⟨_, rfl, and_iff_right rfl⟩

/-- The loops along two arrays. -/
theorem createElementPatches_classified (classifies : Classifies create compare) {index : Nat}
    {from_ to_ : List Item} {diff : Diffed (List Item)}
    (made : createElementPatches create path index from_ to_ = some diff) :
    ∃ compared, compareChildren (fun _ _ => true) compare from_ to_ = some compared ∧
      (diff.patches = [] ↔ compared.equal = true) := by
  induction from_ generalizing index to_ diff with
  | nil =>
      cases to_ with
      | nil =>
          cases made
          exact ⟨_, rfl, iff_of_true rfl rfl⟩
      | cons toChild toRest =>
          rw [createElementPatches] at made
          · rcases Option.bind_eq_some_iff.mp made with ⟨patches, ran, made⟩
            cases made
            exact ⟨_, rfl, iff_of_false (mapM_ne_nil ran) Bool.false_ne_true⟩
          · exact fun impossible => nomatch impossible
  | cons fromChild fromRest ih =>
      cases to_ with
      | nil =>
          rw [createElementPatches] at made
          rcases Option.bind_eq_some_iff.mp made with ⟨patches, ran, made⟩
          cases made
          exact ⟨_, rfl, iff_of_false (mapM_ne_nil ran) Bool.false_ne_true⟩
      | cons toChild toRest =>
          rw [createElementPatches] at made
          rcases Option.bind_eq_some_iff.mp made with ⟨element, created, made⟩
          rcases Option.bind_eq_some_iff.mp made with ⟨rest, madeRest, made⟩
          cases made
          rcases classifies _ _ _ _ created with ⟨head, compared, classified⟩
          rcases ih madeRest with ⟨below, ran, others⟩
          exact compareChildren_turn rfl compared classified ran others

/-- The loop along two objects.  As long as the names agree it makes the same turns as the
walk of the comparison, and from then on there is at least one patch. -/
theorem createMemberPatches_classified (classifies : Classifies create compare) {fuel : Nat}
    {from_ to_ : List Item} {diff : Diffed (List Item)}
    (made : createMemberPatches create path caseSensitive fuel from_ to_ = some diff) :
    ∃ compared, compareChildren (fun a b => compareStrings a.string b.string caseSensitive == 0) compare
        from_ to_ = some compared ∧ (diff.patches = [] ↔ compared.equal = true) := by
  induction fuel generalizing from_ to_ diff with
  | zero => cases made
  | succ fuel ih =>
      cases from_ with
      | nil =>
          cases to_ with
          | nil =>
              cases made
              exact ⟨_, rfl, iff_of_true rfl rfl⟩
          | cons toChild toRest =>
              rw [createMemberPatches] at made
              rcases Option.bind_eq_some_iff.mp made with ⟨patch, _, made⟩
              rcases Option.bind_eq_some_iff.mp made with ⟨rest, _, made⟩
              cases made
              exact ⟨_, rfl, iff_of_false (List.cons_ne_nil _ _) Bool.false_ne_true⟩
      | cons fromChild fromRest =>
          cases to_ with
          | nil =>
              rw [createMemberPatches] at made
              rcases Option.bind_eq_some_iff.mp made with ⟨patch, _, made⟩
              rcases Option.bind_eq_some_iff.mp made with ⟨rest, _, made⟩
              cases made
              exact ⟨_, rfl, iff_of_false (List.cons_ne_nil _ _) Bool.false_ne_true⟩
          | cons toChild toRest =>
              rw [createMemberPatches] at made
              by_cases named : compareStrings fromChild.string toChild.string caseSensitive = 0
              · rw [if_pos named] at made
                rcases Option.bind_eq_some_iff.mp made with ⟨name, _, made⟩
                rcases Option.bind_eq_some_iff.mp made with ⟨member, created, made⟩
                rcases Option.bind_eq_some_iff.mp made with ⟨rest, madeRest, made⟩
                cases made
                rcases classifies _ _ _ _ created with ⟨head, compared, classified⟩
                rcases ih madeRest with ⟨below, ran, others⟩
                exact compareChildren_turn (beq_iff_eq.mpr named) compared classified ran others
              · have stopped : ∃ compared, compareChildren
                    (fun a b => compareStrings a.string b.string caseSensitive == 0) compare
                    (fromChild :: fromRest) (toChild :: toRest) = some compared ∧ compared.equal = false := by
                  rw [compareChildren, beq_eq_false_iff_ne.mpr named, Bool.not_false, if_pos rfl]
                  exact ⟨_, rfl, rfl⟩
                rcases stopped with ⟨compared, ran, unequal⟩
                refine ⟨compared, ran, iff_of_false ?_ (Bool.eq_false_iff.mp unequal)⟩
                rw [if_neg named] at made
                by_cases less : compareStrings fromChild.string toChild.string caseSensitive < 0
                · rw [if_pos less] at made
                  rcases Option.bind_eq_some_iff.mp made with ⟨patch, _, made⟩
                  rcases Option.bind_eq_some_iff.mp made with ⟨rest, _, made⟩
                  cases made
                  exact List.cons_ne_nil _ _
                · rw [if_neg less] at made
                  rcases Option.bind_eq_some_iff.mp made with ⟨patch, _, made⟩
                  rcases Option.bind_eq_some_iff.mp made with ⟨rest, _, made⟩
                  cases made
                  exact List.cons_ne_nil _ _

theorem createPatches_classified {fuel : Nat} :
    Classifies (fun path from_ to_ => createPatches fuel path from_ to_ caseSensitive)
      (fun a b => compareJson fuel a b caseSensitive) := by
  induction fuel with
  | zero => exact fun _ _ _ _ made => nomatch made
  | succ fuel ih =>
      intro path from_ to_ diff made
      -- a replacement is one patch
      have replaced : ∀ {other : Option (Diffed Item)}, other = (do
          let patch ← composePatch replaceText path none (some to_)
          some (⟨[patch], from_, to_⟩ : Diffed Item)) -> other = some diff -> diff.patches ≠ [] := by
        intro other replace made
        rw [replace] at made
        rcases Option.bind_eq_some_iff.mp made with ⟨patch, _, made⟩
        cases made
        exact List.cons_ne_nil _ _
      simp only [createPatches] at made
      simp only [compareJson]
      by_cases sameBase : from_.base = to_.base
      · rw [if_neg (not_not.mpr sameBase)] at made ⊢
        have unchanged : some (⟨[], from_, to_⟩ : Diffed Item) = some diff -> diff.patches = [] := by
          intro made
          cases made
          rfl
        cases kind : from_.base with
        | invalid => rw [kind] at made; exact ⟨_, rfl, iff_of_true (unchanged made) rfl⟩
        | raw => rw [kind] at made; exact ⟨_, rfl, iff_of_true (unchanged made) rfl⟩
        | null => rw [kind] at made; exact ⟨_, rfl, iff_of_true (unchanged made) rfl⟩
        | false => rw [kind] at made; exact ⟨_, rfl, iff_of_true (unchanged made) rfl⟩
        | true => rw [kind] at made; exact ⟨_, rfl, iff_of_true (unchanged made) rfl⟩
        | number =>
            rw [kind] at made
            refine ⟨_, rfl, ?_⟩
            rw [Bool.and_eq_true, decide_eq_true_iff]
            by_cases apart : from_.fields.valueint ≠ to_.fields.valueint ∨
                compareDouble from_.fields.valuedouble to_.fields.valuedouble = false
            · apply iff_of_false (replaced (if_pos apart) made)
              rintro ⟨sameInt, close⟩
              rcases apart with other | far
              · exact other sameInt
              · rw [close] at far
                cases far
            · rw [not_or, not_not, Bool.not_eq_false] at apart
              simp only [apart.1, apart.2, ne_eq, not_true_eq_false, Bool.true_eq_false, or_self,
                if_false] at made
              exact iff_of_true (unchanged made) apart
        | string =>
            rw [kind] at made
            rcases Option.bind_eq_some_iff.mp made with ⟨order, compared, made⟩
            simp only [compared, Option.bind_eq_bind, Option.bind_some]
            refine ⟨_, rfl, ?_⟩
            rw [decide_eq_true_iff]
            by_cases equal : order = 0
            · rw [if_neg (not_not.mpr equal)] at made
              exact iff_of_true (unchanged made) equal
            · exact iff_of_false (replaced (if_pos equal) made) equal
        | array =>
            rw [kind] at made
            rcases Option.bind_eq_some_iff.mp made with ⟨below, created, made⟩
            cases made
            rcases createElementPatches_classified ih created with ⟨compared, ran, classified⟩
            simp only [ran, Option.bind_eq_bind, Option.bind_some]
            exact ⟨_, rfl, classified⟩
        | object =>
            rw [kind] at made
            rcases Option.bind_eq_some_iff.mp made with ⟨below, created, made⟩
            cases made
            rcases createMemberPatches_classified ih created with ⟨compared, ran, classified⟩
            simp only [ran, Option.bind_eq_bind, Option.bind_some]
            exact ⟨_, rfl, classified⟩
      · rw [if_pos sameBase] at made ⊢
        exact ⟨_, rfl, iff_of_false (replaced rfl made) Bool.false_ne_true⟩

end Classify

/-- No string node of the tree has lost its text.  On such trees the comparison is
reflexive, which a string without a text would spoil: it gets patches against itself. -/
inductive StringsStored : Item -> Prop where
  | mk {fields : Fields} {child : List Item} {headPrev : HeadPrev}
      (here : fields.type_.base = .string -> fields.valuestring.isSome)
      (below : ∀ item ∈ child, StringsStored item) : StringsStored (.mk fields child headPrev)

theorem StringsStored.child {item next : Item} (stored : StringsStored item) (member : next ∈ item.child) :
    StringsStored next := by
  cases stored with
  | mk _ below => exact below next member

theorem StringsStored.string {item : Item} (stored : StringsStored item) (kind : item.base = .string) :
    ∃ block, item.fields.valuestring = some block := by
  cases stored with
  | mk here _ => exact Option.isSome_iff_exists.mp (here kind)

section Made

variable {caseSensitive : Bool} {path : Bytes} {create : Bytes -> Item -> Item -> Option (Diffed Item)}

theorem exists_composePatch (operation path : Bytes) (suffix : Option Bytes) (value : Option Item) :
    ∃ patch, composePatch operation path suffix value = some patch := by
  cases suffix with
  | none => exact ⟨_, composePatch_plain operation path value⟩
  | some suffix => exact ⟨_, composePatch_suffix operation path suffix value⟩

theorem exists_mapM {α β : Type} {make : α -> Option β} (makes : ∀ item, ∃ made, make item = some made)
    (items : List α) : ∃ made, items.mapM make = some made := by
  induction items with
  | nil => exact ⟨_, rfl⟩
  | cons item rest ih =>
      rcases makes item with ⟨first, made⟩
      rcases ih with ⟨others, madeOthers⟩
      rw [List.mapM_cons, made, madeOthers]
      exact ⟨_, rfl⟩

theorem exists_createElementPatches {index : Nat} {from_ to_ : List Item}
    (pairs : ∀ path, ∀ old ∈ from_, ∀ new ∈ to_, ∃ diff, create path old new = some diff) :
    ∃ diff, createElementPatches create path index from_ to_ = some diff := by
  induction from_ generalizing index to_ with
  | nil =>
      cases to_ with
      | nil => exact ⟨_, rfl⟩
      | cons new toRest =>
          rcases exists_mapM (fun toChild => exists_composePatch addText path (some [45]) (some toChild))
            (new :: toRest) with ⟨patches, ran⟩
          rw [createElementPatches]
          · rw [ran]
            exact ⟨_, rfl⟩
          · exact fun impossible => nomatch impossible
  | cons old fromRest ih =>
      cases to_ with
      | nil =>
          rcases exists_mapM (fun _ : Item =>
            exists_composePatch removeText path (some (allocIndexString index)) none) (old :: fromRest) with
            ⟨patches, ran⟩
          rw [createElementPatches, ran]
          exact ⟨_, rfl⟩
      | cons new toRest =>
          rcases pairs (allocIndexedPath path index) old List.mem_cons_self new List.mem_cons_self with
            ⟨element, created⟩
          rcases @ih (index + 1) toRest (fun path other member next inside =>
            pairs path other (List.mem_cons_of_mem _ member) next (List.mem_cons_of_mem _ inside)) with
            ⟨rest, ran⟩
          rw [createElementPatches, created, ran]
          exact ⟨_, rfl⟩

theorem exists_createMemberPatches {fuel : Nat} {from_ to_ : List Item}
    (enough : from_.length + to_.length < fuel)
    (pairs : ∀ path, ∀ old ∈ from_, ∀ new ∈ to_, ∃ diff, create path old new = some diff) :
    ∃ diff, createMemberPatches create path caseSensitive fuel from_ to_ = some diff := by
  induction fuel generalizing from_ to_ with
  | zero => omega
  | succ fuel ih =>
      cases from_ with
      | nil =>
          cases to_ with
          | nil => exact ⟨_, rfl⟩
          | cons new toRest =>
              rcases exists_composePatch addText path new.string (some new) with ⟨patch, composed⟩
              rw [List.length_cons] at enough
              rcases @ih [] toRest (by omega) (fun _ _ impossible => nomatch impossible) with ⟨rest, ran⟩
              rw [createMemberPatches, composed, ran]
              exact ⟨_, rfl⟩
      | cons old fromRest =>
          rcases exists_composePatch removeText path old.string none with ⟨removal, removed⟩
          have laterFrom : ∀ path, ∀ other ∈ fromRest, ∀ new ∈ to_,
              ∃ diff, create path other new = some diff :=
            fun path other member => pairs path other (List.mem_cons_of_mem _ member)
          cases to_ with
          | nil =>
              rw [List.length_cons] at enough
              rcases @ih fromRest [] (by omega) laterFrom with ⟨rest, ran⟩
              rw [createMemberPatches, removed, ran]
              exact ⟨_, rfl⟩
          | cons new toRest =>
              rw [List.length_cons, List.length_cons] at enough
              rw [createMemberPatches]
              by_cases named : compareStrings old.string new.string caseSensitive = 0
              · rw [if_pos named]
                cases stored : old.string with
                | none =>
                    rw [stored] at named
                    cases named
                | some name =>
                    rcases pairs (encodedPath path name) old List.mem_cons_self new List.mem_cons_self with
                      ⟨member, created⟩
                    rcases @ih fromRest toRest (by omega) (fun path other member next inside =>
                      laterFrom path other member next (List.mem_cons_of_mem _ inside)) with ⟨rest, ran⟩
                    simp only [Option.bind_eq_bind, Option.bind_some, created, ran]
                    exact ⟨_, rfl⟩
              · rw [if_neg named]
                by_cases less : compareStrings old.string new.string caseSensitive < 0
                · rcases @ih fromRest (new :: toRest) (by rw [List.length_cons]; omega) laterFrom with
                    ⟨rest, ran⟩
                  rw [if_pos less, removed, ran]
                  exact ⟨_, rfl⟩
                · rcases exists_composePatch addText path new.string (some new) with ⟨patch, composed⟩
                  rcases @ih (old :: fromRest) toRest (by rw [List.length_cons]; omega)
                    (fun path other member next inside =>
                      pairs path other member next (List.mem_cons_of_mem _ inside)) with ⟨rest, ran⟩
                  rw [if_neg less, composed, ran]
                  exact ⟨_, rfl⟩

/-- On trees without lost texts `create_patches` comes to an end. -/
theorem exists_createPatches {fuel : Nat} {from_ to_ : Item} (enough : from_.height < fuel)
    (fromStored : StringsStored from_) (toStored : StringsStored to_) :
    ∃ diff, createPatches fuel path from_ to_ caseSensitive = some diff := by
  induction fuel generalizing path from_ to_ with
  | zero => omega
  | succ fuel ih =>
      have replace : ∃ diff : Diffed Item, (do
          let patch ← composePatch replaceText path none (some to_)
          some (⟨[patch], from_, to_⟩ : Diffed Item)) = some diff := by
        rw [composePatch_plain]
        exact ⟨_, rfl⟩
      simp only [createPatches]
      by_cases sameBase : from_.base = to_.base
      · rw [if_neg (not_not.mpr sameBase)]
        cases kind : from_.base with
        | invalid => exact ⟨_, rfl⟩
        | raw => exact ⟨_, rfl⟩
        | null => exact ⟨_, rfl⟩
        | false => exact ⟨_, rfl⟩
        | true => exact ⟨_, rfl⟩
        | number =>
            simp only []
            split
            · exact replace
            · exact ⟨_, rfl⟩
        | string =>
            rcases fromStored.string kind with ⟨first, firstStored⟩
            rcases toStored.string (sameBase ▸ kind) with ⟨second, secondStored⟩
            simp only [firstStored, secondStored, cstrCmp, Option.bind_eq_bind, Option.bind_some]
            split
            · exact replace
            · exact ⟨_, rfl⟩
        | array =>
            rcases @exists_createElementPatches path
              (fun path from_ to_ => createPatches fuel path from_ to_ caseSensitive) 0 from_.child to_.child
              (fun path old member new inside => ih (height_lt_of_mem member enough)
                (fromStored.child member) (toStored.child inside)) with ⟨below, ran⟩
            simp only [ran, Option.bind_eq_bind, Option.bind_some]
            exact ⟨_, rfl⟩
        | object =>
            have fromPerm := sortObject_child_perm from_ caseSensitive
            have toPerm := sortObject_child_perm to_ caseSensitive
            rcases @exists_createMemberPatches caseSensitive path
              (fun path from_ to_ => createPatches fuel path from_ to_ caseSensitive) _
              (sortObject from_ caseSensitive).child (sortObject to_ caseSensitive).child
              (Nat.lt_succ_self _)
              (fun path old member new inside =>
                ih (height_lt_of_mem (fromPerm.mem_iff.mp member) enough)
                  (fromStored.child (fromPerm.mem_iff.mp member))
                  (toStored.child (toPerm.mem_iff.mp inside))) with ⟨below, ran⟩
            simp only [ran, Option.bind_eq_bind, Option.bind_some]
            exact ⟨_, rfl⟩
      · rw [if_pos sameBase]
        exact replace

end Made

/-- Whenever `create_patches` comes to an end, it has made no patch exactly if `compare_json`
takes the two trees for equal, and it comes to an end unless the text of a string node is
missing.  The comparison gets the trees as they are before they are sorted, which is what
a copy keeps. -/
theorem createPatches_nil_iff (path : Bytes) (from_ to_ : Item) (caseSensitive : Bool) :
    (∀ diff, createPatches (from_.height + 1) path from_ to_ caseSensitive = some diff ->
      ∃ compared, compareJson (from_.height + 1) from_ to_ caseSensitive = some compared ∧
        (diff.patches = [] ↔ compared.equal = true)) ∧
      (StringsStored from_ -> StringsStored to_ ->
        ∃ diff, createPatches (from_.height + 1) path from_ to_ caseSensitive = some diff) :=
  ⟨createPatches_classified path from_ to_, exists_createPatches (Nat.lt_succ_self _)⟩

theorem nullMembers_stringsStored (first second : Bytes) : StringsStored (nullMembers first second) := by
  have leaf : ∀ name : Bytes, StringsStored (.mk { type_ := { base := .null }, string := some name } [] .null) :=
    fun _ => .mk (fun kind => by cases kind) (fun _ impossible => nomatch impossible)
  refine .mk (fun kind => by cases kind) (fun item member => ?_)
  rcases List.mem_cons.mp member with rfl | later
  · exact leaf first
  · rw [List.mem_singleton.mp later]
    exact leaf second

/-- The objects `{"A": null, "a": null}` and `{"a": null, "A": null}`, with regard to case. -/
theorem createPatches_nil_iff_nullMembers :
    ∃ diff compared, createPatches ((nullMembers [65] [97]).height + 1) [0] (nullMembers [65] [97])
        (nullMembers [97] [65]) true = some diff ∧
      compareJson ((nullMembers [65] [97]).height + 1) (nullMembers [65] [97]) (nullMembers [97] [65]) true =
        some compared ∧ (diff.patches = [] ↔ compared.equal = true) := by
  have both := createPatches_nil_iff [0] (nullMembers [65] [97]) (nullMembers [97] [65]) true
  rcases both.2 (nullMembers_stringsStored _ _) (nullMembers_stringsStored _ _) with ⟨diff, made⟩
  rcases both.1 diff made with ⟨compared, ran, agrees⟩
  exact ⟨diff, compared, made, ran, agrees⟩

end CJson
