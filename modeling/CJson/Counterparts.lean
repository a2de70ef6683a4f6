import CJson.Failures
import CJson.Library.Matching

/-!
# Counterparts in a rearranged tree

A pointer leads in a tree and in a rearrangement of it to one and the same node, though
the positions on the way may be others.  What is then done alike to the two nodes
leaves the trees rearrangements of each other.
-/

namespace CJson

open CString Item Matching

section Lists

variable {caseSensitive : Bool} {item other : Item}

theorem Rearranged.matched (same : Rearranged item other) :
    Matched Rearranged (item.isObject = false) item.child other.child := same.lists

theorem Rearranged.of_matched (fields : other.fields = item.fields)
    (matched : Matched Rearranged (item.isObject = false) item.child other.child) : Rearranged item other := by
  rcases matched with ⟨sorted, perm, array, pairs⟩
  have same : other = item.withChildren other.child other.headPrev := by rw [Item.withChildren, ← fields, eta]
  rw [same]
  exact .withChildren perm array pairs

theorem Rearranged.isArray (same : Rearranged item other) : other.isArray = item.isArray := by
  rw [Item.isArray, Item.isArray, Item.base, Item.base, same.fields]

theorem Rearranged.nameIn (same : Rearranged item other) :
    other.nameIn caseSensitive = item.nameIn caseSensitive := by
  rw [Item.nameIn, Item.nameIn, key, key, same.string]

/-- The names in a rearranged object are different if they are in the object. -/
theorem Rearranged.distinctNames (same : Rearranged item other)
    (distinct : DistinctNamesIn caseSensitive item.child) : DistinctNamesIn caseSensitive other.child := by
  rcases same.lists with ⟨sorted, perm, _, pairs⟩
  apply distinctNamesIn_of_strings (Rearranged.map_eq pairs fun _ _ related => related.string)
  exact distinctNamesIn_perm perm distinct

/-- Two nodes with matching lists of children in the place of those they had. -/
theorem Rearranged.exchange {children others : List Item} {headPrev headPrev' : HeadPrev}
    (same : Rearranged item other) (matched : Matched Rearranged (item.isObject = false) children others) :
    Rearranged (item.withChildren children headPrev) (other.withChildren others headPrev') :=
  .of_matched same.fields matched

theorem Rearranged.withFields (same : Rearranged item other) {fields : Fields}
    (base : fields.type_.base = item.base) : Rearranged (item.withFields fields) (other.withFields fields) := by
  refine .of_matched (show (other.withFields fields).fields = (item.withFields fields).fields from rfl) ?_
  have kind : (item.withFields fields).isObject = item.isObject := by
    rw [Item.isObject, Item.isObject, Item.withFields, base_mk, base]
  rw [kind]
  exact same.matched

/-- Copies of a tree and of a rearrangement of it. -/
theorem duplicateRec_rearranges {copy otherCopy : Item} {depth : Nat} (same : Rearranged item other)
    (made : duplicateRec item depth = some copy) (otherMade : duplicateRec other depth = some otherCopy) :
    Rearranged copy otherCopy := by
  induction item using Item.induct generalizing other copy otherCopy depth with
  | node fields child headPrev ih =>
      have otherFields := same.fields
      have matched := same.matched
      cases other with
      | mk fields' others headPrev' =>
          cases otherFields
          rw [duplicateRec] at made otherMade
          rcases Option.bind_eq_some_iff.mp made with ⟨copies, copied, isCopy⟩
          rcases Option.bind_eq_some_iff.mp otherMade with ⟨otherCopies, otherCopied, isOtherCopy⟩
          cases isCopy
          cases isOtherCopy
          refine .of_matched (by rw [fields_mk, fields_mk]) ?_
          apply matched.transfer (forall₂_of_duplicateChildren copied) (forall₂_of_duplicateChildren otherCopied)
          intro next member last nextCopy lastCopy related nextMade lastMade
          exact ih next member related nextMade lastMade

theorem cjsonDuplicate_rel (same : Rearranged item other) (distinct : item.DistinctKeysIn caseSensitive) :
    Option.Rel Rearranged (cjsonDuplicate item) (cjsonDuplicate other) := by
  have tidy := same.tidied distinct
  cases made : cjsonDuplicate item with
  | none =>
      cases otherMade : cjsonDuplicate other with
      | none => exact .none
      | some otherCopy =>
          have shallow := height_le_of_copied otherMade
          rw [tidy.height] at shallow
          rcases @duplicateRec_eq caseSensitive item 0 shallow distinct with ⟨copy, again, _⟩
          cases made.symm.trans again
  | some copy =>
      have shallow := height_le_of_copied made
      rw [← tidy.height] at shallow
      rcases @duplicateRec_eq caseSensitive other 0 shallow tidy.distinct with ⟨otherCopy, otherMade, _⟩
      rw [cjsonDuplicate, otherMade]
      exact .some (duplicateRec_rearranges same made otherMade)

end Lists

/-! ## Following a pointer -/

section Walks

variable {caseSensitive : Bool} {item other : Item}

/-- One token compares equal to one name only, up to case where case does not count. -/
theorem nameIn_of_comparePointers {pointer : Bytes} {first second : Item}
    (here : comparePointers first.string pointer caseSensitive = true)
    (there : comparePointers second.string pointer caseSensitive = true) :
    first.nameIn caseSensitive = second.nameIn caseSensitive := by
  have decodes : ∀ next : Item, comparePointers next.string pointer caseSensitive = true ->
      ∃ decoded, unescape (token pointer) = some decoded ∧ next.nameIn caseSensitive =
        decoded.map (caseFold caseSensitive) := by
    intro next compared
    cases stored : next.string with
    | none => simp [stored, comparePointers] at compared
    | some string =>
        rw [stored, comparePointers, comparePointersLoop_iff] at compared
        rcases compared with ⟨decoded, unescaped, same⟩
        refine ⟨decoded, unescaped, ?_⟩
        rw [nameIn, key, stored, Option.getD_some]
        exact same
  rcases decodes first here with ⟨decoded, unescaped, isFirst⟩
  rcases decodes second there with ⟨again, unescapedAgain, isSecond⟩
  cases unescaped.symm.trans unescapedAgain
  rw [isFirst, isSecond]

/-- A token selects partners: the same index in two arrays, and members of one name in
two objects, wherever they stand. -/
theorem selectChild_rel (same : Rearranged item other) (distinct : item.DistinctKeysIn caseSensitive)
    (pointer : Bytes) :
    Option.Rel (fun index place => ∃ next last, Partners Rearranged (item.isObject = false) item.child other.child
      index place next last) (selectChild caseSensitive item pointer) (selectChild caseSensitive other pointer) := by
  rw [selectChild, selectChild, same.isArray, same.isObject]
  by_cases array : item.isArray = true
  · rw [if_pos array, if_pos array]
    have ordered : item.isObject = false := by
      rw [← Bool.not_eq_true]
      exact not_isObject_of_isArray array
    cases decodeArrayIndexFromPointer pointer with
    | none => exact .none
    | some index =>
        show Option.Rel _ (getArrayItem item index) (getArrayItem other index)
        rw [getArrayItem, getArrayItem, same.matched.length_eq]
        by_cases inside : index < item.child.length
        · rw [if_pos inside]
          rcases same.matched.partners (List.getElem?_eq_getElem inside) with ⟨place, last, partners⟩
          have position := partners.same ordered
          subst position
          exact .some ⟨_, last, partners⟩
        · rw [if_neg inside]
          exact .none
  · rw [if_neg array, if_neg array]
    by_cases object : item.isObject = true
    · rw [if_pos object, if_pos object]
      have found := same.matched.find (distinct.names object).2
        (fun next last related => congrArg (comparePointers · pointer caseSensitive) related.string)
        (fun first _ second _ => nameIn_of_comparePointers)
      generalize item.child.findIdx?
        (fun member => comparePointers member.string pointer caseSensitive) = here at found ⊢
      generalize other.child.findIdx?
        (fun member => comparePointers member.string pointer caseSensitive) = there at found ⊢
      cases found with
      | none => exact .none
      | some both =>
          rcases both with ⟨next, last, partners, _⟩
          exact .some ⟨next, last, partners⟩
    · rw [if_neg object, if_neg object]
      exact .none

/-- The node that a path leads to, and its counterpart on another path in the
rearranged tree.  `change` lets both be exchanged at once: if the new nodes are
rearrangements of each other, so are the trees, and this is what carries a patch over
from one run to the other. -/
structure Counterparts (item other : Item) (path place : Item.Path) (node last : Item) : Prop where
  here : item.at? path = some node
  there : other.at? place = some last
  pair : Rearranged node last
  change : ∀ new change, Rearranged new change -> ∃ changed otherChanged,
    item.modify (fun _ => some new) path = some changed ∧
      other.modify (fun _ => some change) place = some otherChanged ∧ Rearranged changed otherChanged

theorem Counterparts.root (same : Rearranged item other) : Counterparts item other [] [] item other :=
  ⟨rfl, rfl, same, fun new change related => ⟨new, change, rfl, rfl, related⟩⟩

theorem Counterparts.below {next last node final : Item} {index position : Nat} {path place : Item.Path}
    (same : Rearranged item other)
    (partners : Partners Rearranged (item.isObject = false) item.child other.child index position next last)
    (counterparts : Counterparts next last path place node final) :
    Counterparts item other (index :: path) (position :: place) node final where
  here := by
    rw [Item.at?, partners.here]
    exact counterparts.here
  there := by
    rw [Item.at?, partners.there]
    exact counterparts.there
  pair := counterparts.pair
  change := by
    intro new change related
    rcases counterparts.change new change related with ⟨changed, otherChanged, modified, otherModified, below⟩
    refine ⟨item.withChildren (item.child.set index changed) item.headPrev,
      other.withChildren (other.child.set position otherChanged) other.headPrev, ?_, ?_, ?_⟩
    · simp only [Item.modify, partners.here, modified, Option.map_some]
    · simp only [Item.modify, partners.there, otherModified, Option.map_some]
    · exact same.exchange (partners.set _ _ below)

theorem followPointer_rel (pointer : Bytes) (same : Rearranged item other)
    (distinct : item.DistinctKeysIn caseSensitive) :
    Option.Rel (fun path place => ∃ node last, Counterparts item other path place node last)
      (followPointer caseSensitive pointer item) (followPointer caseSensitive pointer other) := by
  induction pointer generalizing item other with
  | nil => exact .some ⟨item, other, .root same⟩
  | cons byte rest ih =>
      rw [followPointer, followPointer]
      by_cases zero : byte = 0
      · rw [if_pos zero, if_pos zero]
        exact .some ⟨item, other, .root same⟩
      rw [if_neg zero, if_neg zero]
      by_cases separator : byte = slash
      · rw [if_pos separator, if_pos separator]
        have selected := selectChild_rel same distinct rest
        generalize selectChild caseSensitive item rest = here at selected ⊢
        generalize selectChild caseSensitive other rest = there at selected ⊢
        cases selected with
        | none => exact .none
        | some both =>
            rcases both with ⟨next, last, partners⟩
            simp only [partners.here, partners.there]
            have below := ih partners.pair (distinct.child (List.mem_of_getElem? partners.here))
            generalize followPointer caseSensitive rest next = path at below ⊢
            generalize followPointer caseSensitive rest last = place at below ⊢
            cases below with
            | none => exact .none
            | some both =>
                rcases both with ⟨node, final, counterparts⟩
                exact .some ⟨node, final, counterparts.below same partners⟩
      · rw [if_neg separator, if_neg separator]
        exact ih same distinct

theorem getItemFromPointer_rel (pointer : Bytes) (same : Rearranged item other)
    (distinct : item.DistinctKeysIn caseSensitive) :
    Option.Rel (fun path place => ∃ node last, Counterparts item other path place node last)
      (getItemFromPointer item pointer caseSensitive) (getItemFromPointer other pointer caseSensitive) := by
  rw [getItemFromPointer, getItemFromPointer]
  by_cases leading : first pointer = slash
  · rw [if_pos leading, if_pos leading]
    exact followPointer_rel pointer same distinct
  · rw [if_neg leading, if_neg leading]
    exact .some ⟨item, other, .root same⟩

end Walks
end CJson
