import CJson.Rewrites
import CJson.Sorted

/-!
# When generated patches find their way

A generated patch that takes a member away, or puts one in, works on the document
as the patches before it have left it.  Along two sorted lists of members the
invariant is `Pending`: what has been passed is as it should be, what is still to
come is as it was, and a member that still has to go is found by the lookup of
`detach_path`, which ignores case.
-/

namespace CJson

open CString Item

/-- `create_patches` writes the new value down and does not look below.  It does so
for nodes of different kinds, and for numbers and strings that differ; containers of
one kind are compared entry by entry instead. -/
def Replaced (from_ to_ : Item) : Prop :=
  from_.base ≠ to_.base ∨
    from_.base = .number ∧ (from_.fields.valueint ≠ to_.fields.valueint ∨
      compareDouble from_.fields.valuedouble to_.fields.valuedouble = false) ∨
    from_.base = .string ∧ from_.fields.valuestring.map text ≠ to_.fields.valuestring.map text

/-- A member that has no partner it could be changed into: either there is none of its
name, or the one there is replaces it. -/
def Gone (caseSensitive : Bool) (to_ : List Item) (member : Item) : Prop :=
  ∀ new ∈ to_, new.nameIn caseSensitive = member.nameIn caseSensitive -> Replaced member new

/-- Every name that a mode takes for this one survives being decoded in place.  The
patch spells the member as it is written in one of the trees, and without regard to
case the other one may write it differently. -/
def KeepsPlacesIn (caseSensitive : Bool) (folded : Bytes) : Prop :=
  ∀ name, (0 : UInt8) ∉ name -> name.map (caseFold caseSensitive) = folded -> KeepsPlaces name

/-- The patches that lead from one tree to another find their places in the first: new
values can be copied, tokens can be decoded in place, and where a member has to go,
the members in front of it whose names differ from its name in case alone go before
it.  The condition follows the two trees down as `create_patches` does.  It excludes
what the two faults of the code can reach: the decoder, which moves no byte but those
of an escape, and the lookup of `detach_path`, which ignores case in either mode. -/
inductive Mendable (caseSensitive : Bool) : Item -> Item -> Prop where
  | replace {object target : Item} (replaced : Replaced object target)
      (shallow : target.height ≤ cjsonCircularLimit) : Mendable caseSensitive object target
  | keep {object target : Item} (same : ¬ Replaced object target) (notArray : object.isArray = false)
      (notObject : object.isObject = false) : Mendable caseSensitive object target
  | array {object target : Item} (array : object.isArray = true) (targetArray : target.isArray = true)
      (elements : ∀ (index : Nat) (element new : Item), object.child[index]? = some element ->
        target.child[index]? = some new -> Mendable caseSensitive element new)
      (appended : ∀ new ∈ target.child.drop object.child.length, new.height ≤ cjsonCircularLimit) :
      Mendable caseSensitive object target
  | object {object target : Item} (isObject : object.isObject = true)
      (targetObject : target.isObject = true)
      (members : ∀ member ∈ object.child, ∀ new ∈ target.child,
        member.nameIn caseSensitive = new.nameIn caseSensitive -> Mendable caseSensitive member new)
      (added : ∀ new ∈ target.child,
        new.nameIn caseSensitive ∉ object.child.map (nameIn caseSensitive) ->
        new.height ≤ cjsonCircularLimit ∧ KeepsPlacesIn caseSensitive (new.nameIn caseSensitive))
      (gone : ∀ member ∈ object.child, Gone caseSensitive target.child member ->
        KeepsPlacesIn caseSensitive (member.nameIn caseSensitive) ∧
        ∀ earlier, [earlier, member].Sublist object.child ->
          earlier.nameIn false = member.nameIn false ->
          Gone caseSensitive target.child earlier ∧
            sortKey caseSensitive earlier < sortKey caseSensitive member) :
      Mendable caseSensitive object target

section Names

variable {caseSensitive : Bool}

theorem keepsPlacesIn_true {name : Bytes} (free : (0 : UInt8) ∉ name) :
    KeepsPlacesIn true name ↔ KeepsPlaces name := by
  constructor
  · intro keeps
    apply keeps name free
    rw [caseFold, if_pos rfl, List.map_id]
  · intro keeps other _ same
    rw [caseFold, if_pos rfl, List.map_id] at same
    exact same ▸ keeps

theorem zero_not_mem_key (item : Item) : (0 : UInt8) ∉ item.key := zero_not_mem_text _

theorem foldName_key (item : Item) : foldName caseSensitive item.key = item.nameIn caseSensitive := by
  rw [foldName, text_eq_self (zero_not_mem_key item), nameIn]

theorem keepsPlaces_key {item : Item} {folded : Bytes} (keeps : KeepsPlacesIn caseSensitive folded)
    (same : item.nameIn caseSensitive = folded) : KeepsPlaces item.key :=
  keeps item.key (zero_not_mem_key item) same

theorem pair_sublist {α : Type} {list : List α} {first second : Nat} {earlier later : α}
    (before : first < second) (firstThere : list[first]? = some earlier)
    (secondThere : list[second]? = some later) : [earlier, later].Sublist list := by
  have front : earlier ∈ list.take second := by
    rw [List.mem_iff_getElem?]
    refine ⟨first, ?_⟩
    rw [List.getElem?_take_of_lt before, firstThere]
  have back : later ∈ list.drop second := by
    rw [List.mem_iff_getElem?]
    refine ⟨0, ?_⟩
    rw [List.getElem?_drop, Nat.add_zero, secondThere]
  have both := (List.singleton_sublist.mpr front).append (List.singleton_sublist.mpr back)
  rwa [List.take_append_drop] at both

/-- The lookup that ignores case finds the member that the lookup of the mode finds,
if no member in front of it has the same name up to case. -/
theorem getObjectItem_agree {node : Item} {name : Bytes} {position : Nat}
    (distinct : DistinctNamesIn caseSensitive node.child)
    (found : getObjectItem node name caseSensitive = some position)
    (unshadowed : ∀ earlier,
      [earlier, foldName caseSensitive name].Sublist (node.child.map (nameIn caseSensitive)) ->
      earlier.map toAsciiLowercase ≠ (foldName caseSensitive name).map toAsciiLowercase) :
    getObjectItem node name caseSensitive = getObjectItem node name false := by
  have loose : (foldName caseSensitive name).map toAsciiLowercase = foldName false name := by
    have := @map_toAsciiLowercase_nameIn caseSensitive (namedItem name cjsonCreateObject)
    rwa [nameIn_of_string rfl, nameIn_of_string rfl, foldName_cjsonStrdup, foldName_cjsonStrdup] at this
  rcases getObjectItem_eq_some distinct found with ⟨member, there, named⟩
  rcases List.getElem?_eq_some_iff.mp there with ⟨inside, rfl⟩
  rw [found, getObjectItem_eq_findIdx distinct.1, eq_comm, List.findIdx?_eq_some_iff_getElem]
  refine ⟨inside, ?_, fun earlier before hit => ?_⟩
  · apply decide_eq_true
    rw [← @map_toAsciiLowercase_nameIn caseSensitive, named, loose]
  · have within : earlier < node.child.length := by omega
    have pair := pair_sublist before (List.getElem?_eq_getElem within) there
    have names := pair.map (nameIn caseSensitive)
    rw [List.map_cons, List.map_cons, List.map_nil, named] at names
    apply unshadowed _ names
    rw [map_toAsciiLowercase_nameIn, loose]
    exact of_decide_eq_true hit

end Names

/-! ## Along the members -/

section Members

variable {caseSensitive : Bool} {steps : List (Json.Step Bytes)} {patches : List Item}
  {node next : Item} {from_ to_ : List Item}

/-- What is still to come along two lists of members, in an object on its way from one
to the other.  What is behind the loop has been dealt with, and the rest is in the
object as it was; a member that has to go has nothing in front of it that could be
taken in its place. -/
structure Pending (caseSensitive : Bool) (node : Item) (from_ to_ : List Item) : Prop where
  present : ∀ old ∈ from_, jsonMembers caseSensitive node.child (old.nameIn caseSensitive) =
    some (old.json caseSensitive)
  absent : ∀ new ∈ to_, new.nameIn caseSensitive ∉ from_.map (nameIn caseSensitive) ->
    jsonMembers caseSensitive node.child (new.nameIn caseSensitive) = none
  mendable : ∀ new ∈ to_, new.nameIn caseSensitive ∈ from_.map (nameIn caseSensitive) ->
    ∀ member ∈ node.child, member.nameIn caseSensitive = new.nameIn caseSensitive ->
    Mendable caseSensitive member new
  added : ∀ new ∈ to_, new.nameIn caseSensitive ∉ from_.map (nameIn caseSensitive) ->
    new.height ≤ cjsonCircularLimit ∧ KeepsPlaces new.key
  gone : ∀ old ∈ from_, Gone caseSensitive to_ old -> KeepsPlaces old.key
  unshadowed : ∀ old ∈ from_, Gone caseSensitive to_ old -> ∀ name,
    [name, old.nameIn caseSensitive].Sublist (node.child.map (nameIn caseSensitive)) ->
    name.map toAsciiLowercase = (old.nameIn caseSensitive).map toAsciiLowercase ->
    ∃ other ∈ from_, Gone caseSensitive to_ other ∧ other.nameIn caseSensitive = name ∧
      sortKey caseSensitive other < sortKey caseSensitive old

/-- Some patches have changed what stands under one name.  All other members are the
ones that were there before, and in the order they were in. -/
structure Mended (caseSensitive : Bool) (steps : List (Json.Step Bytes)) (patches : List Item)
    (node next : Item) (name : Bytes) (value : Option (Json Bytes Scalar)) : Prop where
  rewrites : Rewrites caseSensitive steps patches node next
  value : jsonMembers caseSensitive next.child =
    Function.update (jsonMembers caseSensitive node.child) name value
  others : ∀ member ∈ next.child, member.nameIn caseSensitive ≠ name -> member ∈ node.child
  order : ∀ earlier later, later ≠ name ->
    [earlier, later].Sublist (next.child.map (nameIn caseSensitive)) ->
    [earlier, later].Sublist (node.child.map (nameIn caseSensitive))

/-- A list without the members of one name. -/
def Without (caseSensitive : Bool) (name : Bytes) (rest children : List Item) : Prop :=
  ∀ item, item ∈ rest ↔ item ∈ children ∧ item.nameIn caseSensitive ≠ name

theorem Without.mem_names {name other : Bytes} {rest children : List Item}
    (without : Without caseSensitive name rest children) :
    other ∈ rest.map (nameIn caseSensitive) ↔ other ∈ children.map (nameIn caseSensitive) ∧ other ≠ name := by
  constructor
  · intro inside
    rcases List.mem_map.mp inside with ⟨item, member, rfl⟩
    have parts := (without item).mp member
    exact ⟨List.mem_map_of_mem parts.1, parts.2⟩
  · rintro ⟨inside, apart⟩
    rcases List.mem_map.mp inside with ⟨item, member, rfl⟩
    exact List.mem_map_of_mem ((without item).mpr ⟨member, apart⟩)

/-- A change under one name takes the members of that name off both lists.  What is
pending for the other names stays so: their members have the values that they had, and
the order in which they come is the same. -/
theorem Pending.step {name : Bytes} {value : Option (Json Bytes Scalar)} {fromRest toRest : List Item}
    (pending : Pending caseSensitive node from_ to_)
    (mended : Mended caseSensitive steps patches node next name value)
    (fromWithout : Without caseSensitive name fromRest from_)
    (toWithout : Without caseSensitive name toRest to_)
    (clear : ∀ old ∈ from_, old.nameIn caseSensitive = name -> Gone caseSensitive to_ old ->
      ∀ earlier later, later ≠ name ->
      [earlier, later].Sublist (next.child.map (nameIn caseSensitive)) -> earlier ≠ name) :
    Pending caseSensitive next fromRest toRest := by
  have sameMember : ∀ other, other ≠ name ->
      jsonMembers caseSensitive next.child other = jsonMembers caseSensitive node.child other := by
    intro other apart
    rw [mended.value, Function.update_of_ne apart]
  have goneBack : ∀ old ∈ fromRest, Gone caseSensitive toRest old -> Gone caseSensitive to_ old := by
    intro old member gone new inside same
    apply gone new ((toWithout new).mpr ⟨inside, ?_⟩) same
    rw [same]
    exact ((fromWithout old).mp member).2
  have goneOn : ∀ old, Gone caseSensitive to_ old -> Gone caseSensitive toRest old :=
    fun old gone new inside => gone new ((toWithout new).mp inside).1
  constructor
  · intro old member
    have parts := (fromWithout old).mp member
    rw [sameMember _ parts.2]
    exact pending.present old parts.1
  · intro new member fresh
    have parts := (toWithout new).mp member
    rw [fromWithout.mem_names, not_and_not_right] at fresh
    rw [sameMember _ parts.2]
    exact pending.absent new parts.1 fun inside => parts.2 (fresh inside)
  · intro new member paired child inside same
    have parts := (toWithout new).mp member
    refine pending.mendable new parts.1 (fromWithout.mem_names.mp paired).1 child ?_ same
    exact mended.others child inside (same ▸ parts.2)
  · intro new member fresh
    have parts := (toWithout new).mp member
    rw [fromWithout.mem_names, not_and_not_right] at fresh
    exact pending.added new parts.1 fun inside => parts.2 (fresh inside)
  · intro old member gone
    exact pending.gone old ((fromWithout old).mp member).1 (goneBack old member gone)
  · intro old member gone earlier before loose
    have parts := (fromWithout old).mp member
    have wasBefore := mended.order earlier _ parts.2 before
    rcases pending.unshadowed old parts.1 (goneBack old member gone) earlier wasBefore loose with
      ⟨other, otherMember, otherGone, named, less⟩
    refine ⟨other, (fromWithout other).mpr ⟨otherMember, fun isName => ?_⟩, goneOn other otherGone, named,
      less⟩
    exact clear other otherMember isName otherGone earlier _ parts.2 before (named.symm.trans isName)

/-- A member that has to go can be taken out, and what is left.  The lookup that
ignores case agrees with the one of the mode, and so it is this member that
`detach_path` takes. -/
structure TakenOut (caseSensitive : Bool) (node : Item) (name : Bytes) (position : Nat)
    (member rest : Item) : Prop where
  found : getObjectItem node name caseSensitive = some position
  agree : getObjectItem node name caseSensitive = getObjectItem node name false
  detached : cjsonDetachItemViaPointer node position = some (member, rest)
  wellFormed : rest.WellFormed caseSensitive
  fields : rest.fields = node.fields
  value : jsonMembers caseSensitive rest.child =
    Function.update (jsonMembers caseSensitive node.child) (foldName caseSensitive name) none
  children : rest.child.Sublist node.child

theorem TakenOut.absent {name : Bytes} {position : Nat} {member rest : Item}
    (taken : TakenOut caseSensitive node name position member rest) :
    foldName caseSensitive name ∉ rest.child.map (nameIn caseSensitive) := by
  apply jsonMembers_eq_none_iff.mp
  rw [taken.value, Function.update_self]

/-- The first of the members that are still to come, if it has to go: the lookup finds
it, although it ignores case, because the members that differ from it only in case
have gone before. -/
theorem Pending.takenOut {old : Item} (pending : Pending caseSensitive node from_ to_)
    (wellFormed : node.WellFormed caseSensitive) (isObject : node.isObject = true)
    (member : old ∈ from_) (gone : Gone caseSensitive to_ old)
    (least : ∀ other ∈ from_, ¬ sortKey caseSensitive other < sortKey caseSensitive old) :
    ∃ position taken rest, TakenOut caseSensitive node old.key position taken rest := by
  have names := wellFormed.distinct.names isObject
  have present := pending.present old member
  cases found : getObjectItem node old.key caseSensitive with
  | none =>
      have absent := member_absent wellFormed isObject found
      rw [json_object isObject, Json.member_object, foldName_key, present] at absent
      cases absent
  | some position =>
      rcases member_detached wellFormed isObject found with
        ⟨taken, rest, detached, _, _, restWellFormed, fields, value⟩
      have restObject : rest.isObject = true := by
        rw [Item.isObject, Item.base, fields]
        exact isObject
      have agree : getObjectItem node old.key caseSensitive = getObjectItem node old.key false := by
        apply getObjectItem_agree names found
        intro earlier before loose
        rw [foldName_key] at before loose
        rcases pending.unshadowed old member gone earlier before loose with ⟨other, inside, _, _, less⟩
        exact least other inside less
      refine ⟨position, taken, rest, found, agree, detached, restWellFormed, fields, ?_, ?_⟩
      · rw [json_object isObject, json_object restObject, Json.member_object, Json.object.injEq] at value
        exact value
      · rw [(cjsonDetachItemViaPointer_wellFormed wellFormed detached).2.2.1]
        exact List.eraseIdx_sublist _ _

/-- Putting a member of a new name behind the others.  The deletion that comes before
it finds nothing to delete. -/
structure PutIn (caseSensitive : Bool) (node : Item) (name : Bytes) (item result : Item) : Prop where
  added : cjsonAddItemToObject (cjsonDeleteItemFromObject node name caseSensitive) name item = some result
  wellFormed : result.WellFormed caseSensitive
  fields : result.fields = node.fields
  value : jsonMembers caseSensitive result.child = Function.update (jsonMembers caseSensitive node.child)
    (foldName caseSensitive name) (some (item.json caseSensitive))
  children : ∃ renamed, result.child = node.child ++ [renamed] ∧
    renamed.nameIn caseSensitive = foldName caseSensitive name

theorem exists_putIn {name : Bytes} {item : Item} (wellFormed : node.WellFormed caseSensitive)
    (isObject : node.isObject = true) (itemWellFormed : item.WellFormed caseSensitive)
    (fresh : jsonMembers caseSensitive node.child (foldName caseSensitive name) = none) :
    ∃ result, PutIn caseSensitive node name item result := by
  have names := wellFormed.distinct.names isObject
  have absent : getObjectItem node name caseSensitive = none := by
    cases found : getObjectItem node name caseSensitive with
    | none => rfl
    | some position =>
        rcases getObjectItem_eq_some names found with ⟨member, there, named⟩
        exact absurd (named ▸ List.mem_map_of_mem (List.mem_of_getElem? there))
          (jsonMembers_eq_none_iff.mp fresh)
  have kept : cjsonDeleteItemFromObject node name caseSensitive = node := by
    rw [cjsonDeleteItemFromObject, absent]
  have freshMember : Json.member (some (node.json caseSensitive)) (foldName caseSensitive name) = none := by
    rw [json_object isObject, Json.member_object, fresh]
  rcases member_added wellFormed isObject itemWellFormed freshMember with
    ⟨result, added, resultWellFormed, fields, value⟩
  have resultObject : result.isObject = true := by
    rw [Item.isObject, Item.base, fields]
    exact isObject
  refine ⟨result, ?_, resultWellFormed, fields, ?_, namedItem name item, ?_, ?_⟩
  · rw [kept, added]
  · rw [json_object isObject, json_object resultObject, Json.member_object, Json.object.injEq] at value
    exact value
  · rw [cjsonAddItemToObject, addItemToArray_eq wellFormed.linked] at added
    cases added
    rfl
  · rw [nameIn_of_string rfl, foldName_cjsonStrdup]

/-- Of two different names in a list with a new one behind it, the first is not the
new one. -/
theorem pair_sublist_concat {α : Type} {list : List α} {earlier later last : α} (apart : later ≠ last)
    (pair : [earlier, later].Sublist (list ++ [last])) : [earlier, later].Sublist list := by
  rcases List.sublist_append_iff.mp pair with ⟨front, back, split, inFront, inBack⟩
  rcases List.sublist_singleton.mp inBack with rfl | rfl
  · rw [List.append_nil] at split
    exact split ▸ inFront
  · have ends := congrArg List.getLast? split
    rw [List.getLast?_concat] at ends
    exact absurd (Option.some_inj.mp ends) apart

/-- What the names in front of a later one are after a member has been taken out and
perhaps put in again. -/
theorem TakenOut.order {name : Bytes} {position : Nat} {member rest : Item}
    (taken : TakenOut caseSensitive node name position member rest) {earlier later : Bytes}
    (pair : [earlier, later].Sublist (rest.child.map (nameIn caseSensitive))) :
    [earlier, later].Sublist (node.child.map (nameIn caseSensitive)) ∧
      earlier ≠ foldName caseSensitive name := by
  refine ⟨pair.trans (taken.children.map _), ?_⟩
  rintro rfl
  exact taken.absent (pair.subset List.mem_cons_self)

section Steps

variable {path : Bytes} {old new : Item}

/-- A member without a partner is removed.  Its name must be the least of those that
are left, so that nothing that differs from it only in case is found in its place. -/
theorem Pending.remove (pending : Pending caseSensitive node from_ to_)
    (wellFormed : node.WellFormed caseSensitive) (isObject : node.isObject = true)
    (spells : Spells path (steps ++ [.member old.key]))
    (member : old ∈ from_) (gone : Gone caseSensitive to_ old)
    (least : ∀ other ∈ from_, ¬ sortKey caseSensitive other < sortKey caseSensitive old) :
    ∃ next, Mended caseSensitive steps [patchItem removeText path none] node next
        (old.nameIn caseSensitive) none ∧
      ∀ earlier later, later ≠ old.nameIn caseSensitive ->
        [earlier, later].Sublist (next.child.map (nameIn caseSensitive)) ->
        earlier ≠ old.nameIn caseSensitive := by
  rcases pending.takenOut wellFormed isObject member gone least with ⟨position, oldMember, rest, taken⟩
  have order := @TakenOut.order _ _ _ _ _ _ taken
  have value := taken.value
  rw [foldName_key] at order value
  refine ⟨rest, ⟨?_, value, fun child inside _ => taken.children.subset inside,
    fun earlier later _ pair => (order pair).1⟩, fun earlier later _ pair => (order pair).2⟩
  exact rewrites_removeMember wellFormed isObject (zero_not_mem_key old) (pending.gone old member gone) spells
    taken.agree taken.found taken.detached

/-- A member of a new name is added, as a copy behind the others; the name must be one
that the decoder keeps. -/
theorem Pending.add (pending : Pending caseSensitive node from_ to_)
    (wellFormed : node.WellFormed caseSensitive) (isObject : node.isObject = true)
    (spells : Spells path (steps ++ [.member new.key])) (distinct : new.DistinctKeysIn caseSensitive)
    (member : new ∈ to_) (fresh : new.nameIn caseSensitive ∉ from_.map (nameIn caseSensitive)) :
    ∃ next, Mended caseSensitive steps [patchItem addText path (cjsonDuplicate new)] node next
        (new.nameIn caseSensitive) (some (new.json caseSensitive)) := by
  have added := pending.added new member fresh
  rcases value_copied added.1 distinct with ⟨given, copy, made, copied, copyWellFormed, copyValue⟩
  have absent := pending.absent new member fresh
  rw [← foldName_key] at absent
  rcases exists_putIn wellFormed isObject copyWellFormed absent with ⟨result, put⟩
  have value := put.value
  rw [foldName_key, copyValue] at value
  rcases put.children with ⟨renamed, children, named⟩
  rw [foldName_key] at named
  rw [made]
  refine ⟨result, ?_, value, fun child inside apart => ?_, fun earlier later apart pair => ?_⟩
  · exact rewrites_addMember isObject (zero_not_mem_key new) added.2 spells copied put.added put.wellFormed
      put.fields
  · rw [children] at inside
    rcases List.mem_append.mp inside with before | last
    · exact before
    · exact absurd (List.mem_singleton.mp last ▸ named) apart
  · rw [children, List.map_append, List.map_singleton, named] at pair
    exact pair_sublist_concat apart pair

/-- A member is replaced by its partner.  The lookup without regard to case has to
find it for the removal, just as if it were removed for good; the copy then goes
behind the other members. -/
theorem Pending.replace (pending : Pending caseSensitive node from_ to_)
    (wellFormed : node.WellFormed caseSensitive) (isObject : node.isObject = true)
    (spells : Spells path (steps ++ [.member old.key])) (distinct : new.DistinctKeysIn caseSensitive)
    (member : old ∈ from_) (gone : Gone caseSensitive to_ old)
    (least : ∀ other ∈ from_, ¬ sortKey caseSensitive other < sortKey caseSensitive old)
    (shallow : new.height ≤ cjsonCircularLimit) :
    ∃ next, Mended caseSensitive steps [patchItem replaceText path (cjsonDuplicate new)] node next
        (old.nameIn caseSensitive) (some (new.json caseSensitive)) ∧
      ∀ earlier later, later ≠ old.nameIn caseSensitive ->
        [earlier, later].Sublist (next.child.map (nameIn caseSensitive)) ->
        earlier ≠ old.nameIn caseSensitive := by
  rcases pending.takenOut wellFormed isObject member gone least with ⟨position, oldMember, rest, taken⟩
  rcases value_copied shallow distinct with ⟨given, copy, made, copied, copyWellFormed, copyValue⟩
  have restObject : rest.isObject = true := by
    rw [Item.isObject, Item.base, taken.fields]
    exact isObject
  have absent := jsonMembers_eq_none_iff.mpr taken.absent
  rcases exists_putIn taken.wellFormed restObject copyWellFormed absent with ⟨result, put⟩
  have value := put.value
  rw [taken.value, Function.update_idem, foldName_key, copyValue] at value
  rcases put.children with ⟨renamed, children, named⟩
  rw [foldName_key] at named
  have order := @TakenOut.order _ _ _ _ _ _ taken
  rw [foldName_key] at order
  have inRest : ∀ earlier later, later ≠ old.nameIn caseSensitive ->
      [earlier, later].Sublist (result.child.map (nameIn caseSensitive)) ->
      [earlier, later].Sublist (rest.child.map (nameIn caseSensitive)) := by
    intro earlier later apart pair
    rw [children, List.map_append, List.map_singleton, named] at pair
    exact pair_sublist_concat apart pair
  rw [made]
  refine ⟨result, ⟨?_, value, fun child inside apart => ?_, fun earlier later apart pair => ?_⟩,
    fun earlier later apart pair => ?_⟩
  · exact rewrites_replaceMember wellFormed isObject (zero_not_mem_key old) (pending.gone old member gone)
      spells taken.agree taken.found taken.detached copied put.added put.wellFormed put.fields
  · rw [children] at inside
    rcases List.mem_append.mp inside with before | last
    · exact taken.children.subset before
    · exact absurd (List.mem_singleton.mp last ▸ named) apart
  · exact (order (inRest earlier later apart pair)).1
  · exact (order (inRest earlier later apart pair)).2

/-- The patches below a member change it where it stands.  The walker finds the member
by its name, with the regard to case that it is told to have. -/
theorem mended_below {member changed : Item} {position : Nat} {name : Bytes}
    (wellFormed : node.WellFormed caseSensitive) (isObject : node.isObject = true)
    (free : (0 : UInt8) ∉ name) (there : node.child[position]? = some member)
    (named : member.nameIn caseSensitive = foldName caseSensitive name)
    (rewrites : Rewrites caseSensitive (steps ++ [.member name]) patches member changed) :
    ∃ next, Mended caseSensitive steps patches node next (foldName caseSensitive name)
      (some (changed.json caseSensitive)) := by
  have names := wellFormed.distinct.names isObject
  have sameName : changed.nameIn caseSensitive = member.nameIn caseSensitive := by
    rw [nameIn, nameIn, key, key, Item.string, Item.string, rewrites.fields]
  have stands : Stands caseSensitive node position member
      (foldStep caseSensitive (.member name)) := by
    rw [foldStep, ← named]
    exact .member isObject
  refine ⟨_, rewrites.below wellFormed free there stands, ?_, fun child inside apart => ?_,
    fun earlier later _ pair => ?_⟩
  · rw [withChildren_child, jsonMembers_set names.2 there sameName, named]
  · rcases List.mem_or_eq_of_mem_set inside with before | rfl
    · exact before
    · exact absurd (sameName.trans named) apart
  · rwa [withChildren_child, map_set_of_eq _ there sameName] at pair

end Steps

end Members

end CJson
