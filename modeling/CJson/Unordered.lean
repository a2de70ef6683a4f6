import CJson.Patch
import CJson.Library.Json

/-!
# Trees as values with unordered objects

The value of a tree forgets the order of members, the flags and the links.  In a
case-insensitive mode it also forgets the case of names, which then have to be
different up to case.
-/

namespace CJson

open CString

/-- What a node without children stands for, `null` apart.  Both fields of a number
are kept, because the program can set them apart; a string without a text is a value
of its own. -/
inductive Scalar where
  | invalid
  | false
  | true
  | number (valueint : Int) (valuedouble : Binary64)
  | string (bytes : Option Bytes)
  | raw (bytes : Option Bytes)

namespace Item

/-- The member name as the lookups of a mode see it. -/
def nameIn (caseSensitive : Bool) (item : Item) : Bytes := item.key.map (caseFold caseSensitive)

mutual

/-- The value of a tree.  An object is a function from names to values, so neither the
order of its members nor a second member of a name shows; without regard to case,
names are folded first. -/
def json (caseSensitive : Bool) : Item -> Json Bytes Scalar
  | .mk fields child _ =>
      match fields.type_.base with
      | .invalid => .scalar .invalid
      | .false => .scalar .false
      | .true => .scalar .true
      | .null => .null
      | .number => .scalar (.number fields.valueint fields.valuedouble)
      | .string => .scalar (.string (fields.valuestring.map text))
      | .array => .array (jsonElements caseSensitive child)
      | .object => .object (jsonMembers caseSensitive child)
      | .raw => .scalar (.raw (fields.valuestring.map text))

def jsonElements (caseSensitive : Bool) : List Item -> List (Json Bytes Scalar)
  | [] => []
  | item :: rest => item.json caseSensitive :: jsonElements caseSensitive rest

def jsonMembers (caseSensitive : Bool) : List Item -> Bytes -> Option (Json Bytes Scalar)
  | [], _ => none
  | item :: rest, name =>
      if item.nameIn caseSensitive = name then some (item.json caseSensitive)
      else jsonMembers caseSensitive rest name

end

/-- The siblings' names are present and different for the lookups of a mode. -/
def DistinctNamesIn (caseSensitive : Bool) (children : List Item) : Prop :=
  (∀ item ∈ children, item.string.isSome) ∧ (children.map (nameIn caseSensitive)).Nodup

/-- Every object in the tree has member names that are different in a mode. -/
inductive DistinctKeysIn (caseSensitive : Bool) : Item -> Prop where
  | mk {fields : Fields} {child : List Item} {headPrev : HeadPrev}
      (here : fields.type_.base = .object -> DistinctNamesIn caseSensitive child)
      (below : ∀ item ∈ child, DistinctKeysIn caseSensitive item) :
      DistinctKeysIn caseSensitive (mk fields child headPrev)

theorem DistinctKeysIn.child {caseSensitive : Bool} {item next : Item}
    (distinct : item.DistinctKeysIn caseSensitive) (member : next ∈ item.child) :
    next.DistinctKeysIn caseSensitive := by
  cases distinct with
  | mk _ below => exact below next member

theorem DistinctKeysIn.names {caseSensitive : Bool} {item : Item}
    (distinct : item.DistinctKeysIn caseSensitive) (object : item.isObject = true) :
    DistinctNamesIn caseSensitive item.child := by
  cases distinct with
  | mk here _ => exact here (by simpa [isObject] using object)

@[simp] theorem nameIn_true (item : Item) : item.nameIn true = item.key := by
  simp [nameIn, caseFold]

theorem distinctKeysIn_true {item : Item} : item.DistinctKeysIn true ↔ item.DistinctKeys := by
  have names : ∀ children, DistinctNamesIn true children ↔ DistinctNames children := by
    intro children
    rw [DistinctNamesIn, DistinctNames, List.map_congr_left (fun item _ => nameIn_true item)]
  induction item using induct with
  | node fields child headPrev ih =>
      constructor
      · rintro ⟨here, below⟩
        exact .mk (fun object => (names child).mp (here object))
          (fun item member => (ih item member).mp (below item member))
      · rintro ⟨here, below⟩
        exact .mk (fun object => (names child).mpr (here object))
          (fun item member => (ih item member).mpr (below item member))

/-! ## Values of child lists -/

section Values

variable {caseSensitive : Bool}

theorem json_object {item : Item} (object : item.isObject = true) :
    item.json caseSensitive = .object (jsonMembers caseSensitive item.child) := by
  cases item with
  | mk fields child headPrev =>
      have base : fields.type_.base = .object := by simpa [isObject] using object
      rw [json, base]
      rfl

theorem json_eq_member {item : Item} (object : item.isObject = true) :
    item.json caseSensitive = .object (Json.member (some (item.json caseSensitive))) := by
  rw [json_object object, Json.member_object]

/-- The value of a node does not depend on its name, its flags and its links.  Only
the base type, the scalar fields and the children count. -/
theorem json_congr {item other : Item} (base : item.base = other.base)
    (number : item.fields.valueint = other.fields.valueint ∧
      item.fields.valuedouble = other.fields.valuedouble)
    (string : item.fields.valuestring.map text = other.fields.valuestring.map text)
    (elements : jsonElements caseSensitive item.child = jsonElements caseSensitive other.child)
    (members : jsonMembers caseSensitive item.child = jsonMembers caseSensitive other.child) :
    item.json caseSensitive = other.json caseSensitive := by
  cases item with
  | mk fields child headPrev =>
      cases other with
      | mk fields' child' headPrev' =>
          simp only [base_mk, fields_mk, child_mk] at base number string elements members
          rw [json, json, base, number.1, number.2, string, elements, members]

theorem json_isObject_iff {item : Item} :
    (∃ members, item.json caseSensitive = .object members) ↔ item.isObject = true := by
  cases item with
  | mk fields child headPrev =>
      rw [json, isObject, base_mk]
      cases fields.type_.base <;> simp

theorem json_isNull_iff {item : Item} : item.json caseSensitive = .null ↔ item.isNull = true := by
  cases item with
  | mk fields child headPrev =>
      rw [json, isNull, base_mk]
      cases fields.type_.base <;> simp

theorem jsonMembers_append (front back : List Item) (name : Bytes) :
    jsonMembers caseSensitive (front ++ back) name =
      (jsonMembers caseSensitive front name).or (jsonMembers caseSensitive back name) := by
  induction front with
  | nil => rw [List.nil_append, jsonMembers, Option.none_or]
  | cons item front ih =>
      rw [List.cons_append, jsonMembers, jsonMembers]
      by_cases here : item.nameIn caseSensitive = name
      · rw [if_pos here, if_pos here, Option.some_or]
      · rw [if_neg here, if_neg here, ih]

theorem jsonMembers_eq_none_iff {children : List Item} {name : Bytes} :
    jsonMembers caseSensitive children name = none ↔
      name ∉ children.map (nameIn caseSensitive) := by
  induction children with
  | nil => simp [jsonMembers]
  | cons item children ih =>
      rw [jsonMembers, List.map_cons, List.mem_cons, not_or]
      by_cases here : item.nameIn caseSensitive = name
      · rw [if_pos here]
        constructor
        · exact fun impossible => nomatch impossible
        · exact fun apart => absurd here.symm apart.1
      · rw [if_neg here, ih]
        exact ⟨fun apart => ⟨fun same => here same.symm, apart⟩, And.right⟩

/-- Among different names the member of a name is found wherever it stands.  This is
what makes the value of an object independent of the order of its members. -/
theorem jsonMembers_of_mem {children : List Item} {item : Item}
    (distinct : (children.map (nameIn caseSensitive)).Nodup) (member : item ∈ children) :
    jsonMembers caseSensitive children (item.nameIn caseSensitive) =
      some (item.json caseSensitive) := by
  induction children with
  | nil => exact absurd member List.not_mem_nil
  | cons head children ih =>
      rw [List.map_cons, List.nodup_cons] at distinct
      rw [jsonMembers]
      rcases List.mem_cons.mp member with rfl | later
      · rw [if_pos rfl]
      · have apart : head.nameIn caseSensitive ≠ item.nameIn caseSensitive := by
          intro same
          exact distinct.1 (same ▸ List.mem_map_of_mem later)
        rw [if_neg apart, ih distinct.2 later]

end Values

end Item
end CJson
