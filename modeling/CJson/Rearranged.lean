import CJson.Sorted

/-!
# Trees that differ in the order of members

`compare_json` and `generate_merge_patch` sort objects wherever they come by, in one
mode or the other.  Two trees are rearrangements of each other if they differ in
the order of members and in `prev` fields alone.  That is more than having one value:
the names are the same to the byte, and so a third sort brings the members into the
same order again.
-/

namespace CJson

open CString Item

/-- In this tree the members of the objects of that one have changed places, on any
level; arrays are in order.  Fields are the same, and `head.prev` may hold anything,
as it does after sorting. -/
inductive Rearranged : Item -> Item -> Prop where
  | mk {fields : Fields} {child sorted rearranged : List Item} {headPrev headPrev' : HeadPrev}
      (perm : child.Perm sorted) (array : fields.type_.base ≠ .object -> sorted = child)
      (length : sorted.length = rearranged.length)
      (below : ∀ (index : Nat) (item other : Item), sorted[index]? = some item ->
        rearranged[index]? = some other -> Rearranged item other) :
      Rearranged (.mk fields child headPrev) (.mk fields rearranged headPrev')

namespace Rearranged

variable {caseSensitive : Bool} {item other : Item}

/-- Members change places, and then each of them is rearranged; elements of an array
keep their places. -/
theorem withChildren {sorted rearranged : List Item} {headPrev : HeadPrev}
    (perm : item.child.Perm sorted) (array : item.isObject = false -> sorted = item.child)
    (below : List.Forall₂ Rearranged sorted rearranged) :
    Rearranged item (item.withChildren rearranged headPrev) := by
  cases item with
  | mk fields child headPrev =>
      rcases forall₂_iff_getElem?.mp below with ⟨length, pairs⟩
      refine .mk perm (fun notObject => array ?_) length pairs
      exact beq_eq_false_iff_ne.mpr notObject

theorem fields (same : Rearranged item other) : other.fields = item.fields := by
  cases same
  rfl

/-- The two child lists. -/
theorem lists (same : Rearranged item other) :
    ∃ sorted, item.child.Perm sorted ∧ (item.isObject = false -> sorted = item.child) ∧
      List.Forall₂ Rearranged sorted other.child := by
  cases same with
  | mk perm array length below =>
      refine ⟨_, perm, fun notObject => array ?_, forall₂_iff_getElem?.mpr ⟨length, below⟩⟩
      exact beq_eq_false_iff_ne.mp notObject

theorem string (same : Rearranged item other) : other.string = item.string := by
  rw [Item.string, Item.string, same.fields]

theorem isObject (same : Rearranged item other) : other.isObject = item.isObject := by
  rw [Item.isObject, Item.isObject, Item.base, Item.base, same.fields]

theorem refl (item : Item) : Rearranged item item := by
  induction item using Item.induct with
  | node fields child headPrev ih =>
      refine .mk (List.Perm.refl _) (fun _ => rfl) rfl fun index next other here there => ?_
      cases here.symm.trans there
      exact ih next (List.mem_of_getElem? here)

theorem refl_list (items : List Item) : List.Forall₂ Rearranged items items :=
  List.forall₂_same.mpr fun item _ => refl item

theorem map_eq {β : Type} {items others : List Item} (pairs : List.Forall₂ Rearranged items others)
    {view : Item -> β} (same : ∀ item other, Rearranged item other -> view other = view item) :
    others.map view = items.map view := by
  induction pairs with
  | nil => rfl
  | cons head _ ih => rw [List.map_cons, List.map_cons, same _ _ head, ih]

/-- Every child of a rearranged tree is one of the first tree, rearranged. -/
theorem original (same : Rearranged item other) {next : Item} (member : next ∈ other.child) :
    ∃ child ∈ item.child, Rearranged child next := by
  rcases same.lists with ⟨sorted, perm, _, below⟩
  rcases List.mem_iff_getElem?.mp member with ⟨index, there⟩
  rcases forall₂_iff_getElem?.mp below with ⟨length, pairs⟩
  have bound := (List.getElem?_eq_some_iff.mp there).1
  rw [← length] at bound
  have here := List.getElem?_eq_getElem bound
  exact ⟨_, perm.mem_iff.mpr (List.mem_of_getElem? here), pairs index _ next here there⟩

private theorem trans_lists {items others lasts : List Item}
    (below : ∀ item ∈ items, ∀ other last, Rearranged item other -> Rearranged other last ->
      Rearranged item last)
    (first : List.Forall₂ Rearranged items others) (second : List.Forall₂ Rearranged others lasts) :
    List.Forall₂ Rearranged items lasts := by
  induction first generalizing lasts with
  | nil =>
      cases second
      exact .nil
  | cons head _ ih =>
      cases second with
      | cons headAgain tailAgain =>
          refine .cons (below _ List.mem_cons_self _ _ head headAgain) (ih ?_ tailAgain)
          exact fun item member => below item (List.mem_cons_of_mem _ member)

/-- One rearrangement after another is a rearrangement. -/
theorem trans {last : Item} (first : Rearranged item other) (second : Rearranged other last) :
    Rearranged item last := by
  induction item using Item.induct generalizing other last with
  | node fields child headPrev ih =>
      rcases first.lists with ⟨sorted, perm, array, below⟩
      rcases second.lists with ⟨sortedAgain, permAgain, arrayAgain, belowAgain⟩
      have same : last = (Item.mk fields child headPrev).withChildren last.child last.headPrev := by
        rw [Item.withChildren, ← first.fields, ← second.fields, eta]
      have members : ∀ {middle : List Item}, child.Perm middle -> ∀ next ∈ middle, ∀ other last,
          Rearranged next other -> Rearranged other last -> Rearranged next last :=
        fun perm next inside _ _ => ih next (perm.mem_iff.mpr inside)
      rw [same]
      by_cases object : (Item.mk fields child headPrev).isObject = true
      · -- sort twice first, and rearrange the members twice afterwards
        have both : Relation.Comp (List.Forall₂ Rearranged) List.Perm sorted sortedAgain :=
          ⟨other.child, below, permAgain⟩
        rw [List.forall₂_comp_perm_eq_perm_comp_forall₂] at both
        rcases both with ⟨sortedTwice, permTwice, belowTwice⟩
        refine .withChildren (perm.trans permTwice) (fun array => ?_)
          (trans_lists (members (perm.trans permTwice)) belowTwice belowAgain)
        rw [object] at array
        cases array
      · rw [Bool.not_eq_true] at object
        rw [first.isObject] at arrayAgain
        rw [arrayAgain object] at belowAgain
        exact .withChildren perm array (trans_lists (members perm) below belowAgain)

/-- A rearranged tree has the same value. -/
theorem tidied (same : Rearranged item other) (distinct : item.DistinctKeysIn caseSensitive) :
    Tidied caseSensitive item other := by
  induction item using Item.induct generalizing other with
  | node fields child headPrev ih =>
      rcases same.lists with ⟨sorted, perm, array, below⟩
      have isSame : other = ((Item.mk fields child headPrev).withChildren sorted headPrev).withChildren
          other.child other.headPrev := by
        rw [Item.withChildren, Item.withChildren, fields_mk, fields_mk, ← fields_mk fields child headPrev,
          ← same.fields, eta]
      have first : Tidied caseSensitive (.mk fields child headPrev)
          ((Item.mk fields child headPrev).withChildren sorted headPrev) := by
        by_cases object : (Item.mk fields child headPrev).isObject = true
        · exact tidied_perm perm distinct object
        · rw [Bool.not_eq_true] at object
          rw [array object]
          exact .refl distinct
      have members : List.Forall₂ (Tidied caseSensitive) sorted other.child := by
        rcases forall₂_iff_getElem?.mp below with ⟨length, pairs⟩
        refine forall₂_iff_getElem?.mpr ⟨length, fun index next changed here there => ?_⟩
        have inside := perm.mem_iff.mpr (List.mem_of_getElem? here)
        exact ih next inside (pairs index next changed here there) (distinct.child inside)
      rw [isSame]
      exact first.trans (.withChildren members first.distinct)

end Rearranged

/-! ## Sorting -/

section Sorting

variable {caseSensitive : Bool} {item other : Item}

theorem rearranged_sortObject {object : Item} (isObject : object.isObject = true) :
    Rearranged object (sortObject object caseSensitive) := by
  refine .withChildren (sortObject_child_perm object caseSensitive).symm (fun array => ?_)
    (Rearranged.refl_list _)
  rw [isObject] at array
  cases array

/-- In the order of their names, the members of a rearranged object are those of the object,
one by one. -/
theorem Rearranged.sorted (same : Rearranged item other)
    (distinct : DistinctNamesIn caseSensitive item.child) :
    List.Forall₂ Rearranged (sortObject item caseSensitive).child (sortObject other caseSensitive).child := by
  rcases same.lists with ⟨members, perm, _, below⟩
  have fromItem := sortObject_child_perm item caseSensitive
  have toOther := (sortObject_child_perm other caseSensitive).symm
  -- rearrange the sorted members one by one: they are the other ones, and in order
  have swapped : Relation.Comp (List.Forall₂ Rearranged) List.Perm (sortObject item caseSensitive).child
      other.child := List.perm_comp_forall₂ (fromItem.trans perm) below
  rcases swapped with ⟨rearranged, pairs, back⟩
  have inOrder : InOrder caseSensitive rearranged := by
    have sameKeys : rearranged.map (sortKey caseSensitive) =
        (sortObject item caseSensitive).child.map (sortKey caseSensitive) := by
      apply Rearranged.map_eq pairs
      intro first second related
      rw [sortKey, sortKey, related.string]
    have sorted := inOrder_sortObject distinct
    rw [InOrder, ← List.pairwise_map (f := sortKey caseSensitive) (R := (· < ·))] at sorted ⊢
    rwa [sameKeys]
  have otherDistinct : DistinctNamesIn caseSensitive other.child := by
    apply distinctNamesIn_of_strings (Rearranged.map_eq below fun _ _ related => related.string)
    exact distinctNamesIn_perm perm distinct
  have unique : rearranged = (sortObject other caseSensitive).child := by
    apply List.Perm.eq_of_pairwise _ inOrder (inOrder_sortObject otherDistinct) (back.trans toOther)
    intro first second _ _ less greater
    exact absurd greater (lt_asymm less)
  rwa [unique] at pairs

end Sorting

/-! ## Comparing -/

section Comparing

variable {mode : Bool}

/-- What the walk along two child lists does to them: each element may come back
rearranged, but in its place.  The elements behind the first difference are not
touched. -/
theorem compareChildren_rearranges {names : Item -> Item -> Bool}
    {compare : Item -> Item -> Option (Compared Item)} {as bs : List Item} {result : Compared (List Item)}
    (ran : compareChildren names compare as bs = some result)
    (rearranges : ∀ a b compared, compare a b = some compared ->
      Rearranged a compared.a ∧ Rearranged b compared.b) :
    List.Forall₂ Rearranged as result.a ∧ List.Forall₂ Rearranged bs result.b := by
  have unchanged : List.Forall₂ Rearranged as as ∧ List.Forall₂ Rearranged bs bs :=
    ⟨Rearranged.refl_list as, Rearranged.refl_list bs⟩
  induction as generalizing bs result with
  | nil =>
      cases bs with
      | nil =>
          cases ran
          exact unchanged
      | cons b bs =>
          cases ran
          exact unchanged
  | cons a as ih =>
      cases bs with
      | nil =>
          cases ran
          exact unchanged
      | cons b bs =>
          have tails := And.intro (Rearranged.refl_list as) (Rearranged.refl_list bs)
          rw [compareChildren] at ran
          by_cases named : names a b = true
          · rw [named, Bool.not_true, if_neg Bool.false_ne_true] at ran
            rcases Option.bind_eq_some_iff.mp ran with ⟨head, compared, ran⟩
            rcases rearranges a b head compared with ⟨headA, headB⟩
            by_cases equal : head.equal = true
            · rw [equal, Bool.not_true, if_neg Bool.false_ne_true] at ran
              rcases Option.bind_eq_some_iff.mp ran with ⟨rest, ranRest, ran⟩
              rcases ih ranRest tails with ⟨restA, restB⟩
              cases ran
              exact ⟨.cons headA restA, .cons headB restB⟩
            · rw [Bool.not_eq_true] at equal
              rw [equal, Bool.not_false, if_pos rfl] at ran
              cases ran
              exact ⟨.cons headA tails.1, .cons headB tails.2⟩
          · rw [Bool.not_eq_true] at named
            rw [named, Bool.not_false, if_pos rfl] at ran
            cases ran
            exact unchanged

/-- `compare_json` leaves both trees rearranged, whatever it comes to. -/
theorem compareJson_rearranges {fuel : Nat} {a b : Item} {compared : Compared Item}
    (ran : compareJson fuel a b mode = some compared) :
    Rearranged a compared.a ∧ Rearranged b compared.b := by
  induction fuel generalizing a b compared with
  | zero => cases ran
  | succ fuel ih =>
      have unchanged : ∀ equal, some (⟨equal, a, b⟩ : Compared Item) = some compared ->
          Rearranged a compared.a ∧ Rearranged b compared.b := by
        intro equal ran
        cases ran
        exact ⟨.refl a, .refl b⟩
      rw [compareJson] at ran
      by_cases sameBase : a.base = b.base
      · rw [if_neg (not_not.mpr sameBase)] at ran
        cases kind : a.base with
        | invalid => rw [kind] at ran; exact unchanged _ ran
        | raw => rw [kind] at ran; exact unchanged _ ran
        | null => rw [kind] at ran; exact unchanged _ ran
        | false => rw [kind] at ran; exact unchanged _ ran
        | true => rw [kind] at ran; exact unchanged _ ran
        | number => rw [kind] at ran; exact unchanged _ ran
        | string =>
            rw [kind] at ran
            rcases Option.bind_eq_some_iff.mp ran with ⟨order, _, ran⟩
            exact unchanged _ ran
        | array =>
            rw [kind] at ran
            rcases Option.bind_eq_some_iff.mp ran with ⟨below, walked, ran⟩
            rcases compareChildren_rearranges walked fun _ _ _ => ih with ⟨belowA, belowB⟩
            cases ran
            exact ⟨.withChildren (List.Perm.refl _) (fun _ => rfl) belowA,
              .withChildren (List.Perm.refl _) (fun _ => rfl) belowB⟩
        | object =>
            rw [kind] at ran
            rcases Option.bind_eq_some_iff.mp ran with ⟨below, walked, ran⟩
            rcases compareChildren_rearranges walked fun _ _ _ => ih with ⟨belowA, belowB⟩
            have objectA : a.isObject = true := beq_iff_eq.mpr kind
            have objectB : b.isObject = true := beq_iff_eq.mpr (sameBase ▸ kind)
            cases ran
            exact ⟨(rearranged_sortObject objectA).trans
                (.withChildren (List.Perm.refl _) (fun _ => rfl) belowA),
              (rearranged_sortObject objectB).trans
                (.withChildren (List.Perm.refl _) (fun _ => rfl) belowB)⟩
      · rw [if_pos sameBase] at ran
        exact unchanged _ ran

/-- `compare_json` sorts its first tree in places, in the mode it compares in, whatever the
second one is. -/
theorem compareJson_tidies {caseSensitive : Bool} {fuel : Nat} {a b : Item} {compared : Compared Item}
    (ran : compareJson fuel a b mode = some compared) (distinct : a.DistinctKeysIn caseSensitive) :
    Tidied caseSensitive a compared.a :=
  (compareJson_rearranges ran).1.tidied distinct

end Comparing

end CJson
