import CJson.Comparison

/-!
# What sorting keeps

`create_patches`, `compare_json` and `generate_merge_patch` sort the objects they
walk through.  A sorted tree has the same value, and its member names come in the
order of the comparison.
-/

namespace CJson

open CString Item

/-- The name of a member as the comparison of the sort sees it. -/
def sortKey (caseSensitive : Bool) (item : Item) : List Nat :=
  folded (caseFold caseSensitive) (item.string.getD [])

section Names

variable {caseSensitive : Bool} {first second : Item}

theorem sortKey_eq_iff : sortKey caseSensitive first = sortKey caseSensitive second ↔
    first.nameIn caseSensitive = second.nameIn caseSensitive := by
  have injective : Function.Injective UInt8.toNat := fun _ _ same => UInt8.toNat_inj.mp same
  have mapped : ∀ item : Item, sortKey caseSensitive item = (item.nameIn caseSensitive).map UInt8.toNat := by
    intro item
    rw [sortKey, folded, nameIn, key, List.map_map]
    rfl
  rw [mapped, mapped, (List.map_injective_iff.mpr injective).eq_iff]

/-- What `compare_strings` says about the names of two members: its sign is the order
of the sort keys, and it is zero for equal names of the mode. -/
theorem compareStrings_spec (firstNamed : first.string.isSome) (secondNamed : second.string.isSome) :
    (compareStrings first.string second.string caseSensitive < 0 ↔
      sortKey caseSensitive first < sortKey caseSensitive second) ∧
    (compareStrings first.string second.string caseSensitive = 0 ↔
      first.nameIn caseSensitive = second.nameIn caseSensitive) := by
  rcases Option.isSome_iff_exists.mp firstNamed with ⟨firstString, firstStored⟩
  rcases Option.isSome_iff_exists.mp secondNamed with ⟨secondString, secondStored⟩
  have spec := compareBy_spec (keepsTerminator_caseFold caseSensitive) firstString secondString
  rw [← sortKey_eq_iff, sortKey, sortKey, firstStored, secondStored]
  exact spec

/-- The members come in the order of their names, and strictly so: no two of them have
the same name in this mode. -/
def InOrder (caseSensitive : Bool) (children : List Item) : Prop :=
  children.Pairwise fun first second => sortKey caseSensitive first < sortKey caseSensitive second

theorem sortList_orders {children : List Item} (named : ∀ child ∈ children, child.string.isSome) :
    MergeSort.Orders (smallerName caseSensitive) (fun entry => sortKey caseSensitive entry.1)
      children.zipIdx := by
  intro left leftMember right rightMember
  have leftNamed := named left.1 (List.fst_mem_of_mem_zipIdx leftMember)
  have rightNamed := named right.1 (List.fst_mem_of_mem_zipIdx rightMember)
  rw [smallerName, decide_eq_true_iff]
  exact (compareStrings_spec leftNamed rightNamed).1

/-- A sorted object of different names is in order. -/
theorem inOrder_sortObject {object : Item} (distinct : DistinctNamesIn caseSensitive object.child) :
    InOrder caseSensitive (sortObject object caseSensitive).child := by
  have sorted := MergeSort.sort_sorted (@sortList_orders caseSensitive object.child distinct.1)
  have weak : (sortObject object caseSensitive).child.Pairwise fun first second =>
      sortKey caseSensitive first ≤ sortKey caseSensitive second := by
    rw [sortObject, withChildren_child, sortList, List.pairwise_map]
    exact sorted
  have names : ((sortObject object caseSensitive).child.map (nameIn caseSensitive)).Nodup :=
    ((sortObject_child_perm object caseSensitive).map _).nodup_iff.mpr distinct.2
  rw [List.Nodup, List.pairwise_map] at names
  refine (weak.and names).imp fun both => ?_
  exact lt_of_le_of_ne both.1 fun same => both.2 (sortKey_eq_iff.mp same)

theorem InOrder.least {head : Item} {rest : List Item} (inOrder : InOrder caseSensitive (head :: rest)) :
    ∀ other ∈ head :: rest, ¬ sortKey caseSensitive other < sortKey caseSensitive head := by
  intro other member
  rcases List.mem_cons.mp member with rfl | later
  · exact lt_irrefl _
  · exact lt_asymm ((List.pairwise_cons.mp inOrder).1 other later)

/-- A name that is smaller than the first one is not among them. -/
theorem InOrder.not_mem {item head : Item} {rest : List Item} (inOrder : InOrder caseSensitive (head :: rest))
    (smaller : sortKey caseSensitive item < sortKey caseSensitive head) :
    item.nameIn caseSensitive ∉ (head :: rest).map (nameIn caseSensitive) := by
  intro inside
  rcases List.mem_map.mp inside with ⟨other, member, same⟩
  rw [← sortKey_eq_iff.mpr same] at smaller
  exact inOrder.least other member smaller

theorem InOrder.head_not_mem {head : Item} {rest : List Item} (inOrder : InOrder caseSensitive (head :: rest)) :
    head.nameIn caseSensitive ∉ rest.map (nameIn caseSensitive) := by
  intro inside
  rcases List.mem_map.mp inside with ⟨other, member, same⟩
  have less := (List.pairwise_cons.mp inOrder).1 other member
  rw [sortKey_eq_iff.mpr same] at less
  exact lt_irrefl _ less

/-- The members of the other names. -/
theorem jsonMembers_cons_of_ne {head : Item} {rest : List Item} {name : Bytes}
    (apart : name ≠ head.nameIn caseSensitive) :
    jsonMembers caseSensitive rest name = jsonMembers caseSensitive (head :: rest) name := by
  rw [jsonMembers, if_neg (Ne.symm apart)]

end Names

/-! ## The same values in another order -/

section Order

variable {caseSensitive : Bool}

theorem jsonMembers_perm {children others : List Item} (perm : children.Perm others)
    (distinct : (children.map (nameIn caseSensitive)).Nodup) :
    jsonMembers caseSensitive children = jsonMembers caseSensitive others := by
  have otherDistinct := (perm.map (nameIn caseSensitive)).nodup_iff.mp distinct
  funext name
  cases there : jsonMembers caseSensitive children name with
  | none =>
      rw [jsonMembers_eq_none_iff, (perm.map _).mem_iff] at there
      exact (jsonMembers_eq_none_iff.mpr there).symm
  | some value =>
      rcases exists_child_of_jsonMembers there with ⟨child, member, rfl, rfl⟩
      exact (jsonMembers_of_mem otherDistinct (perm.mem_iff.mp member)).symm

theorem heightBelow_perm {children others : List Item} (perm : children.Perm others) :
    heightBelow children = heightBelow others := by
  induction perm with
  | nil => rfl
  | cons item _ ih => rw [heightBelow, heightBelow, ih]
  | swap first second rest =>
      rw [heightBelow, heightBelow, heightBelow, heightBelow]
      omega
  | trans _ _ firstIh secondIh => exact firstIh.trans secondIh

theorem distinctNamesIn_perm {children others : List Item} (perm : children.Perm others)
    (distinct : DistinctNamesIn caseSensitive children) : DistinctNamesIn caseSensitive others :=
  ⟨fun item member => distinct.1 item (perm.mem_iff.mpr member),
    (perm.map _).nodup_iff.mp distinct.2⟩

/-- The names are what they are because of the strings. -/
theorem distinctNamesIn_of_strings {children others : List Item}
    (strings : others.map Item.string = children.map Item.string)
    (distinct : DistinctNamesIn caseSensitive children) : DistinctNamesIn caseSensitive others := by
  constructor
  · intro item member
    have name := List.mem_map_of_mem (f := Item.string) member
    rw [strings] at name
    rcases List.mem_map.mp name with ⟨child, inside, equal⟩
    rw [← equal]
    exact distinct.1 child inside
  · have named : ∀ items : List Item, items.map (nameIn caseSensitive) = (items.map Item.string).map
        fun string => (text (string.getD [])).map (caseFold caseSensitive) := by
      intro items
      rw [List.map_map]
      rfl
    rw [named, strings, ← named]
    exact distinct.2

/-- A tree that has been sorted in places.  Its value, its fields and its height are
what they were. -/
structure Tidied (caseSensitive : Bool) (item tidied : Item) : Prop where
  fields : tidied.fields = item.fields
  json : tidied.json caseSensitive = item.json caseSensitive
  height : tidied.height = item.height
  distinct : tidied.DistinctKeysIn caseSensitive

namespace Tidied

theorem refl {item : Item} (distinct : item.DistinctKeysIn caseSensitive) :
    Tidied caseSensitive item item :=
  ⟨rfl, rfl, rfl, distinct⟩

theorem nameIn {item tidied : Item} (tidy : Tidied caseSensitive item tidied) :
    tidied.nameIn caseSensitive = item.nameIn caseSensitive := by
  rw [Item.nameIn, Item.nameIn, key, key, Item.string, Item.string, tidy.fields]

/-- What the children of two trees have in common if the one list is the other one
tidied, element by element: values, names and heights. -/
theorem lists {children tidied : List Item} (tidy : List.Forall₂ (Tidied caseSensitive) children tidied) :
    tidied.map (Item.json caseSensitive) = children.map (Item.json caseSensitive) ∧
      jsonMembers caseSensitive tidied = jsonMembers caseSensitive children ∧
      tidied.map Item.string = children.map Item.string ∧
      tidied.map (Item.nameIn caseSensitive) = children.map (Item.nameIn caseSensitive) ∧
      heightBelow tidied = heightBelow children := by
  induction tidy with
  | nil => exact ⟨rfl, rfl, rfl, rfl, rfl⟩
  | cons head _ ih =>
      refine ⟨?_, ?_, ?_, ?_, ?_⟩
      · rw [List.map_cons, List.map_cons, head.json, ih.1]
      · funext name
        rw [jsonMembers, jsonMembers, head.nameIn, head.json, ih.2.1]
      · rw [List.map_cons, List.map_cons, Item.string, Item.string, head.fields, ih.2.2.1]
      · rw [List.map_cons, List.map_cons, head.nameIn, ih.2.2.2.1]
      · rw [heightBelow, heightBelow, head.height, ih.2.2.2.2]

theorem distinctNames {children tidied : List Item}
    (tidy : List.Forall₂ (Tidied caseSensitive) children tidied)
    (distinct : DistinctNamesIn caseSensitive children) : DistinctNamesIn caseSensitive tidied :=
  distinctNamesIn_of_strings (lists tidy).2.2.1 distinct

theorem below {children tidied : List Item} (tidy : List.Forall₂ (Tidied caseSensitive) children tidied)
    {item : Item} (member : item ∈ tidied) : item.DistinctKeysIn caseSensitive := by
  induction tidy with
  | nil => exact absurd member List.not_mem_nil
  | cons head _ ih =>
      rcases List.mem_cons.mp member with rfl | later
      · exact head.distinct
      · exact ih later

/-- A tree whose children have been sorted in places is that tree sorted in places. -/
theorem withChildren {item : Item} {tidied : List Item} {headPrev : HeadPrev}
    (tidy : List.Forall₂ (Tidied caseSensitive) item.child tidied)
    (distinct : item.DistinctKeysIn caseSensitive) :
    Tidied caseSensitive item (item.withChildren tidied headPrev) where
  fields := rfl
  json := by
    have same := lists tidy
    refine @json_congr _ (item.withChildren tidied headPrev) item rfl ⟨rfl, rfl⟩ rfl ?_ ?_
    · rw [jsonElements_eq_map, jsonElements_eq_map, withChildren_child, same.1]
    · exact same.2.1
  height := by
    cases item
    exact (lists tidy).2.2.2.2
  distinct := .mk (fun object => distinctNames tidy (distinct.names (beq_iff_eq.mpr object)))
    (fun _ member => below tidy member)

theorem trans {item middle tidied : Item} (first : Tidied caseSensitive item middle)
    (second : Tidied caseSensitive middle tidied) : Tidied caseSensitive item tidied :=
  ⟨second.fields.trans first.fields, second.json.trans first.json, second.height.trans first.height,
    second.distinct⟩

end Tidied

theorem tidied_refl {children : List Item} (distinct : ∀ child ∈ children, child.DistinctKeysIn caseSensitive) :
    List.Forall₂ (Tidied caseSensitive) children children :=
  List.forall₂_same.mpr fun child member => .refl (distinct child member)

/-- The members of an object may change places, since their names are different and an
object has no order. -/
theorem tidied_perm {object : Item} {children : List Item} {headPrev : HeadPrev}
    (perm : object.child.Perm children) (distinct : object.DistinctKeysIn caseSensitive)
    (isObject : object.isObject = true) :
    Tidied caseSensitive object (object.withChildren children headPrev) where
  fields := rfl
  json := by
    have names := distinct.names isObject
    rw [json_object isObject, @json_object _ (object.withChildren children headPrev) isObject,
      withChildren_child, jsonMembers_perm perm names.2]
  height := by
    cases object
    exact heightBelow_perm perm.symm
  distinct := by
    refine .mk (fun _ => distinctNamesIn_perm perm (distinct.names isObject)) (fun item member => ?_)
    exact distinct.child (perm.mem_iff.mpr member)

/-- Sorting an object keeps its value, in whatever mode it is sorted. -/
theorem tidied_sortObject {object : Item} (mode : Bool) (distinct : object.DistinctKeysIn caseSensitive)
    (isObject : object.isObject = true) : Tidied caseSensitive object (sortObject object mode) :=
  tidied_perm (sortObject_child_perm object mode).symm distinct isObject

end Order
end CJson
