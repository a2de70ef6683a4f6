import CJson.Members
import CJson.PatchMember
import CJson.Value

/-!
# Comparing trees

`cJSON_Compare` walks along two arrays together and looks every member of one
object up in the other, both ways round.  It sees no more of two trees than their
values, and trees of the same value are equal for it, as long as they are made of
the values that JSON has.
-/

namespace CJson

open CString Item

/-- The loop of `cJSON_Compare` along two arrays: element by element, and the arrays
differ if one of them ends before the other. -/
def compareElements (compare : Item -> Item -> Bool) : List Item -> List Item -> Bool
  | aElement :: as, bElement :: bs =>
      if compare aElement bElement then compareElements compare as bs else false
  | [], [] => true
  -- one of the arrays is longer than the other
  | _, _ => false

/-- A loop of `cJSON_Compare` along an object, with lookups in another one.  A member
without a name finds nothing, and a name that occurs twice finds the same member both
times. -/
def compareMembers (compare : Item -> Item -> Bool) (other : Item) (caseSensitive : Bool)
    (children : List Item) : Bool :=
  children.all fun element =>
    match element.string.bind fun string => getMember other string caseSensitive with
    | none => false
    | some found => compare element found

/-- `cJSON_Compare` for two different nodes, on a budget for the depth.  Flags are
ignored, the stored integers are not compared, and nodes without a type differ from
everything.  Two strings of which one has no value differ. -/
def compareItems : Nat -> Item -> Item -> Bool -> Bool
  | 0, _, _, _ => false
  | fuel + 1, a, b, caseSensitive =>
      if a.base ≠ b.base then false
      else
        match a.base with
        | .invalid => false
        | .false => true
        | .true => true
        | .null => true
        | .number => compareDouble a.fields.valuedouble b.fields.valuedouble
        | .array => compareElements (compareItems fuel · · caseSensitive) a.child b.child
        | .object =>
            compareMembers (compareItems fuel · · caseSensitive) b caseSensitive a.child &&
              -- doing this twice, to prevent true comparison if a subset of b
              compareMembers (compareItems fuel · · caseSensitive) a caseSensitive b.child
        | _ =>
            -- strings and raw texts
            match a.fields.valuestring, b.fields.valuestring with
            | some aString, some bString => compareBy id aString bString == 0
            | _, _ => false

/-- `cJSON_Compare` of two trees that have no node in common.  The early answer for two
equal pointers is left out, since a tree here is a value and not a place: the one call it
would decide otherwise is that of a tree with itself where some value is not equal to
itself.  A turn of the recursion goes down in both trees, so that the height of one of
them bounds its depth. -/
def cjsonCompare (a b : Item) (caseSensitive : Bool) : Bool :=
  compareItems (a.height + 1) a b caseSensitive

/-- A number that fits is not told apart from itself. -/
theorem compareDouble_ofInt {value : Int} (fits : FitsInt32 value) :
    compareDouble (.ofInt value) (.ofInt value) = true := by
  have small : |value| < 2 ^ 52 := by
    rw [abs_lt]
    rw [FitsInt32] at fits
    omega
  have larger : |(|value|)| < 2 ^ 53 := by
    rw [abs_abs]
    omega
  rw [compareDouble, ite_self, Binary64.sub_ofInt small small, Int.sub_self, Binary64.abs_ofInt,
    Binary64.abs_ofInt, Binary64.scale_ofInt larger (by omega) (by omega), abs_zero, Binary64.ofInt,
    Binary64.le]
  apply decide_eq_true
  rw [Int.cast_zero]
  positivity

/-- Two numbers that fit are told apart. -/
theorem eq_of_compareDouble_ofInt {left right : Int} (leftFits : FitsInt32 left) (rightFits : FitsInt32 right)
    (equal : compareDouble (.ofInt left) (.ofInt right) = true) : left = right := by
  have small : ∀ value : Int, FitsInt32 value -> |value| ≤ 2 ^ 31 := by
    intro value fits
    rw [FitsInt32] at fits
    exact abs_le.mpr ⟨fits.1, fits.2.le⟩
  have leftSmall := small left leftFits
  have rightSmall := small right rightFits
  have larger : ∃ value : Int, |value| ≤ 2 ^ 31 ∧
      (if (Binary64.ofInt |right|).lt (.ofInt |left|) then Binary64.ofInt |left| else .ofInt |right|) =
        .ofInt value := by
    split
    · exact ⟨|left|, (abs_abs left).trans_le leftSmall, rfl⟩
    · exact ⟨|right|, (abs_abs right).trans_le rightSmall, rfl⟩
  rcases larger with ⟨value, valueSmall, chosen⟩
  have margin : (value : ℚ) * 2 ^ (-52 : Int) < 1 := by
    have cast : ((|value| : Int) : ℚ) ≤ ((2 ^ 31 : Int) : ℚ) := Int.cast_le.mpr valueSmall
    rw [Int.cast_abs] at cast
    have bound : (value : ℚ) ≤ 2 ^ 31 := (le_abs_self _).trans (by exact_mod_cast cast)
    rw [zpow_neg, ← div_eq_mul_inv, div_lt_one (by positivity)]
    exact lt_of_le_of_lt bound (by norm_num)
  rw [compareDouble, Binary64.abs_ofInt, Binary64.abs_ofInt, chosen,
    Binary64.sub_ofInt (by omega) (by omega), Binary64.abs_ofInt,
    Binary64.scale_ofInt (by omega) (by omega) (by omega), Binary64.ofInt, Binary64.le,
    decide_eq_true_iff] at equal
  have close : |left - right| < 1 := by exact_mod_cast lt_of_le_of_lt equal margin
  have apart := abs_lt.mp close
  omega

/-! ## JSON values -/

/-- The values that JSON has, with `i32` numbers: no raw text, no invalid node, no
string without a text, and numbers whose two fields agree.  Parsing texts with small
integers gives such values, and on them the comparisons decide equality. -/
inductive Plain : Json Bytes Scalar -> Prop where
  | null : Plain .null
  | false : Plain (.scalar .false)
  | true : Plain (.scalar .true)
  | number {value : Int} (fits : FitsInt32 value) : Plain (.scalar (.number value (.ofInt value)))
  | string (bytes : Bytes) : Plain (.scalar (.string (some bytes)))
  | array {elements : List (Json Bytes Scalar)} (below : ∀ element ∈ elements, Plain element) :
      Plain (.array elements)
  | object {members : Bytes -> Option (Json Bytes Scalar)}
      (below : ∀ name value, members name = some value -> Plain value) : Plain (.object members)

section Values

variable {caseSensitive : Bool}

theorem jsonElements_eq_map (children : List Item) :
    jsonElements caseSensitive children = children.map (json caseSensitive) := by
  induction children with
  | nil => rfl
  | cons item rest ih => rw [jsonElements, ih, List.map_cons]

theorem json_array {item : Item} (array : item.isArray = true) :
    item.json caseSensitive = .array (item.child.map (json caseSensitive)) := by
  cases item with
  | mk fields child headPrev =>
      have base : fields.type_.base = .array := by simpa [isArray] using array
      rw [json, base]
      exact congrArg Json.array (jsonElements_eq_map child)

theorem json_isArray_iff {item : Item} :
    (∃ elements, item.json caseSensitive = .array elements) ↔ item.isArray = true := by
  cases item with
  | mk fields child headPrev =>
      rw [json, isArray, base_mk]
      cases fields.type_.base <;> simp

/-- A member of the value is the value of a child. -/
theorem exists_child_of_jsonMembers {children : List Item} {name : Bytes} {value : Json Bytes Scalar}
    (there : jsonMembers caseSensitive children name = some value) :
    ∃ child ∈ children, child.nameIn caseSensitive = name ∧ child.json caseSensitive = value := by
  induction children with
  | nil => cases there
  | cons head rest ih =>
      rw [jsonMembers] at there
      by_cases here : head.nameIn caseSensitive = name
      · rw [if_pos here] at there
        exact ⟨head, List.mem_cons_self, here, Option.some_inj.mp there⟩
      · rw [if_neg here] at there
        rcases ih there with ⟨child, member, named, same⟩
        exact ⟨child, List.mem_cons_of_mem _ member, named, same⟩

/-- What two trees of the same value have in common in their own fields: the kind,
both numbers, and the text of a string up to its terminator.  The flags, the name and
what a block holds behind the terminator are left open. -/
structure SameScalar (item other : Item) : Prop where
  base : item.base = other.base
  number : item.base = .number -> item.fields.valueint = other.fields.valueint ∧
    item.fields.valuedouble = other.fields.valuedouble
  string : item.base = .string -> item.fields.valuestring.map text = other.fields.valuestring.map text

theorem sameScalar_of_json {item other : Item} (same : item.json caseSensitive = other.json caseSensitive) :
    SameScalar item other := by
  cases item with
  | mk fields child headPrev =>
      cases other with
      | mk fields' child' headPrev' =>
          rw [json, json] at same
          constructor <;> simp only [base_mk, fields_mk] <;>
            cases kind : fields.type_.base <;> cases kind' : fields'.type_.base <;>
            simp_all

theorem members?_isSome {children : List Item} (read : (members? children).isSome = true)
    {child : Item} (member : child ∈ children) : child.value?.isSome = true := by
  rcases Option.isSome_iff_exists.mp read with ⟨values, read⟩
  induction children generalizing values with
  | nil => exact absurd member List.not_mem_nil
  | cons head rest ih =>
      rcases members?_cons.mp read with ⟨name, value, others, _, valueFound, othersFound, _⟩
      rcases List.mem_cons.mp member with rfl | later
      · rw [valueFound]
        rfl
      · exact ih (Option.isSome_iff_exists.mpr ⟨others, othersFound⟩) later others othersFound

theorem elements?_isSome {children : List Item} (read : (elements? children).isSome = true)
    {child : Item} (member : child ∈ children) : child.value?.isSome = true := by
  rcases Option.isSome_iff_exists.mp read with ⟨values, read⟩
  induction children generalizing values with
  | nil => exact absurd member List.not_mem_nil
  | cons head rest ih =>
      rcases elements?_cons.mp read with ⟨value, others, valueFound, othersFound, _⟩
      rcases List.mem_cons.mp member with rfl | later
      · rw [valueFound]
        rfl
      · exact ih (Option.isSome_iff_exists.mpr ⟨others, othersFound⟩) later others othersFound

/-- The value of a node that is not a container. -/
theorem leafValue?_isSome {fields : Fields} {child : List Item} {headPrev : HeadPrev}
    (notArray : fields.type_.base ≠ .array) (notObject : fields.type_.base ≠ .object)
    (read : (value? (.mk fields child headPrev)).isSome = true) : (leafValue? fields).isSome = true := by
  rw [value?] at read
  split at read
  · rename_i isArray
    exact absurd isArray notArray
  · rename_i isObject
    exact absurd isObject notObject
  · split at read
    · exact read
    · cases read

/-- Documents are made of the values that JSON has. -/
theorem plain_of_value? {item : Item} (read : item.value?.isSome = true) :
    Plain (item.json caseSensitive) := by
  induction item using Item.induct with
  | node fields child headPrev ih =>
      rw [json]
      cases kind : fields.type_.base with
      | array =>
          rw [value?, kind] at read
          simp only [Option.isSome_map] at read
          refine .array fun element member => ?_
          rw [jsonElements_eq_map] at member
          rcases List.mem_map.mp member with ⟨next, inside, rfl⟩
          exact ih next inside (elements?_isSome read inside)
      | object =>
          rw [value?, kind] at read
          simp only [Option.isSome_map] at read
          refine .object fun name value there => ?_
          rcases exists_child_of_jsonMembers there with ⟨next, inside, _, rfl⟩
          exact ih next inside (members?_isSome read inside)
      | null => exact .null
      | false => exact .false
      | true => exact .true
      | number =>
          have leaf := leafValue?_isSome (by rw [kind]; decide) (by rw [kind]; decide) read
          rw [leafValue?, kind] at leaf
          simp only [Option.isSome_ite] at leaf
          rw [leaf.1]
          exact .number leaf.2
      | string =>
          have leaf := leafValue?_isSome (by rw [kind]; decide) (by rw [kind]; decide) read
          rw [leafValue?, kind] at leaf
          simp only [Option.isSome_map] at leaf
          rcases Option.isSome_iff_exists.mp leaf with ⟨block, stored⟩
          rw [stored]
          exact .string (text block)
      | invalid =>
          have leaf := leafValue?_isSome (by rw [kind]; decide) (by rw [kind]; decide) read
          rw [leafValue?, kind] at leaf
          cases leaf
      | raw =>
          have leaf := leafValue?_isSome (by rw [kind]; decide) (by rw [kind]; decide) read
          rw [leafValue?, kind] at leaf
          cases leaf

/-- What the nodes of documents are like: of a known kind, with a text if they are
strings, and with a number that both fields agree on.  It is asked of one node, and
`Item.IsDocument` asks it of all. -/
structure PlainNode (item : Item) : Prop where
  known : item.base ≠ .invalid ∧ item.base ≠ .raw
  number : item.base = .number ->
    item.fields.valuedouble = .ofInt item.fields.valueint ∧ FitsInt32 item.fields.valueint
  string : item.base = .string -> ∃ block, item.fields.valuestring = some block

theorem plainNode {item : Item} (plain : Plain (item.json caseSensitive)) : PlainNode item := by
  cases item with
  | mk fields child headPrev =>
      rw [json] at plain
      constructor <;> simp only [base_mk, fields_mk]
      · constructor
        · intro kind
          rw [kind] at plain
          cases plain
        · intro kind
          rw [kind] at plain
          cases plain
      · intro kind
        rw [kind] at plain
        generalize fields.valuedouble = double at plain
        cases plain with
        | number fits => exact ⟨rfl, fits⟩
      · intro kind
        rw [kind] at plain
        cases stored : fields.valuestring with
        | none =>
            rw [stored] at plain
            cases plain
        | some block => exact ⟨block, rfl⟩

theorem plain_child {item child : Item} (plain : Plain (item.json caseSensitive))
    (distinct : item.DistinctKeysIn caseSensitive) (container : item.isArray = true ∨ item.isObject = true)
    (member : child ∈ item.child) : Plain (child.json caseSensitive) := by
  rcases container with array | isObject
  · rw [json_array array] at plain
    cases plain with
    | array below => exact below _ (List.mem_map_of_mem member)
  · rw [json_object isObject] at plain
    cases plain with
    | object below => exact below _ _ (jsonMembers_of_mem (distinct.names isObject).2 member)

/-- A pair of strings is told apart by the texts. -/
theorem cstrCmp_eq_zero {first second : Bytes} : compareBy id first second = 0 ↔ text first = text second := by
  rw [(compareBy_spec keepsTerminator_id first second).2, folded, folded]
  have injective : Function.Injective fun byte : UInt8 => (id byte).toNat :=
    fun _ _ same => UInt8.toNat_inj.mp same
  exact (List.map_injective_iff.mpr injective).eq_iff

theorem json_of_sameScalar {item other : Item} (same : SameScalar item other) (notRaw : item.base ≠ .raw)
    (notArray : item.isArray = false) (notObject : item.isObject = false) :
    item.json caseSensitive = other.json caseSensitive := by
  rcases same with ⟨base, number, string⟩
  cases item with
  | mk fields child headPrev =>
      cases other with
      | mk fields' child' headPrev' =>
          simp only [base_mk, fields_mk, Item.isArray, Item.isObject] at *
          rw [json, json, ← base]
          cases kind : fields.type_.base with
          | invalid => rfl
          | null => rfl
          | false => rfl
          | true => rfl
          | raw => exact absurd kind notRaw
          | array => rw [kind] at notArray; cases notArray
          | object => rw [kind] at notObject; cases notObject
          | number => simp only [number kind]
          | string => simp only [string kind]

theorem height_lt_of_mem {tree next : Item} {bound : Nat} (member : next ∈ tree.child)
    (enough : tree.height < bound + 1) : next.height < bound := by
  cases tree with
  | mk fields _ headPrev =>
      rw [child_mk] at member
      have := height_lt_heightBelow member
      rw [height] at enough
      omega

/-! ## Alike trees -/

/-- The base type of a value. -/
def Scalar.base : Scalar -> BaseType
  | .invalid => .invalid
  | .false => .false
  | .true => .true
  | .number _ _ => .number
  | .string _ => .string
  | .raw _ => .raw

/-- What `cJSON_Compare` asks of two nodes that are no containers.  Numbers are
compared with a tolerance and integers are not looked at; two invalid nodes are
different. -/
def Scalar.Close : Scalar -> Scalar -> Prop
  | .false, .false => True
  | .true, .true => True
  | .number _ double, .number _ other => compareDouble double other
  | .string (some bytes), .string (some other) => bytes = other
  | .raw (some bytes), .raw (some other) => bytes = other
  | _, _ => False

theorem Scalar.Close.base {first second : Scalar} (close : first.Close second) : first.base = second.base := by
  cases first with
  | invalid => exact close.elim
  | false => cases second <;> first | rfl | exact close.elim
  | true => cases second <;> first | rfl | exact close.elim
  | number => cases second <;> first | rfl | exact close.elim
  | string bytes =>
      cases bytes with
      | none => exact close.elim
      | some bytes => cases second <;> first | rfl | exact close.elim
  | raw bytes =>
      cases bytes with
      | none => exact close.elim
      | some bytes => cases second <;> first | rfl | exact close.elim

/-- It does not matter from which of two numbers the distance is measured. -/
theorem compareDouble_comm (first second : Binary64) : compareDouble first second = compareDouble second first := by
  cases first with
  | nan => cases second <;> rfl
  | infinite negative =>
      cases second with
      | nan => rfl
      | infinite other => cases negative <;> cases other <;> rfl
      | finite value => rfl
  | finite value =>
      cases second with
      | nan => rfl
      | infinite negative => rfl
      | finite other =>
          rw [compareDouble, compareDouble, Binary64.abs_sub_comm]
          simp only [Binary64.abs, Binary64.lt, decide_eq_true_iff]
          rcases lt_trichotomy |value| |other| with less | same | more
          · rw [if_neg (lt_asymm less), if_pos less]
          · rw [same]
          · rw [if_pos more, if_neg (lt_asymm more)]

theorem Scalar.Close.symm {first second : Scalar} (close : first.Close second) : second.Close first := by
  cases first with
  | invalid => exact close.elim
  | false => cases second <;> first | exact close | exact close.elim
  | true => cases second <;> first | exact close | exact close.elim
  | number _ double =>
      cases second with
      | number _ other => exact (compareDouble_comm other double).trans close
      | _ => exact close.elim
  | string bytes =>
      cases bytes with
      | none => exact close.elim
      | some bytes =>
          cases second with
          | string other =>
              cases other with
              | none => exact close.elim
              | some other => exact Eq.symm close
          | _ => exact close.elim
  | raw bytes =>
      cases bytes with
      | none => exact close.elim
      | some bytes =>
          cases second with
          | raw other =>
              cases other with
              | none => exact close.elim
              | some other => exact Eq.symm close
          | _ => exact close.elim

theorem Scalar.close_raw_iff (first second : Option Bytes) :
    (Scalar.raw first).Close (.raw second) ↔ (Scalar.string first).Close (.string second) := by
  cases first <;> cases second <;> exact Iff.rfl

/-- The base type of a tree with this value. -/
def baseOf : Json Bytes Scalar -> BaseType
  | .null => .null
  | .scalar scalar => scalar.base
  | .array _ => .array
  | .object _ => .object

theorem baseOf_json (item : Item) : baseOf (item.json caseSensitive) = item.base := by
  cases item with
  | mk fields child headPrev =>
      rw [json, base_mk]
      cases fields.type_.base <;> rfl

theorem base_eq_of_like {related : Scalar -> Scalar -> Prop} {item other : Item}
    (kinds : ∀ first second, related first second -> first.base = second.base)
    (like : Json.Like related (item.json caseSensitive) (other.json caseSensitive)) : item.base = other.base := by
  rw [← @baseOf_json caseSensitive item, ← @baseOf_json caseSensitive other]
  generalize item.json caseSensitive = value at like
  generalize other.json caseSensitive = otherValue at like
  cases like with
  | null => rfl
  | scalar here => exact kinds _ _ here
  | array => rfl
  | object => rfl

/-- The scalar that a node stands for, containers and `null` apart.  Of a text only
what stands in front of the terminator counts. -/
def scalarOf (item : Item) : Scalar :=
  match item.base with
  | .false => .false
  | .true => .true
  | .number => .number item.fields.valueint item.fields.valuedouble
  | .string => .string (item.fields.valuestring.map text)
  | .raw => .raw (item.fields.valuestring.map text)
  | _ => .invalid

theorem json_scalar {item : Item} (notNull : item.base ≠ .null) (notArray : item.base ≠ .array)
    (notObject : item.base ≠ .object) : item.json caseSensitive = .scalar (scalarOf item) := by
  cases item with
  | mk fields child headPrev =>
      rw [base_mk] at notNull notArray notObject
      rw [json, scalarOf, base_mk]
      cases kind : fields.type_.base <;> first | rfl | contradiction

/-- Objects are alike if they have members of the same names, and these are alike.
The second direction needs the names only: a name that occurs on both sides once leads
to one pair. -/
theorem like_members_iff {related : Scalar -> Scalar -> Prop} {as bs : List Item}
    (distinctA : (as.map (nameIn caseSensitive)).Nodup) (distinctB : (bs.map (nameIn caseSensitive)).Nodup) :
    Json.Like related (.object (jsonMembers caseSensitive as)) (.object (jsonMembers caseSensitive bs)) ↔
      (∀ a ∈ as, ∃ b ∈ bs, b.nameIn caseSensitive = a.nameIn caseSensitive ∧
        Json.Like related (a.json caseSensitive) (b.json caseSensitive)) ∧
      ∀ b ∈ bs, ∃ a ∈ as, a.nameIn caseSensitive = b.nameIn caseSensitive := by
  constructor
  · intro like
    cases like with
    | object names below =>
        constructor
        · intro a member
          have here := jsonMembers_of_mem distinctA member
          have present := names (a.nameIn caseSensitive)
          rw [here, Option.isSome_some, eq_comm, Option.isSome_iff_exists] at present
          rcases present with ⟨value, there⟩
          rcases exists_child_of_jsonMembers there with ⟨b, inside, named, rfl⟩
          exact ⟨b, inside, named, below _ _ _ here there⟩
        · intro b inside
          have present := names (b.nameIn caseSensitive)
          rw [jsonMembers_of_mem distinctB inside, Option.isSome_some, Option.isSome_iff_exists] at present
          rcases present with ⟨value, here⟩
          rcases exists_child_of_jsonMembers here with ⟨a, member, named, _⟩
          exact ⟨a, member, named⟩
  · rintro ⟨forward, backward⟩
    refine .object (fun name => ?_) (fun name value other here there => ?_)
    · rw [Bool.eq_iff_iff, Option.isSome_iff_exists, Option.isSome_iff_exists]
      constructor
      · rintro ⟨value, here⟩
        rcases exists_child_of_jsonMembers here with ⟨a, member, rfl, _⟩
        rcases forward a member with ⟨b, inside, named, _⟩
        exact ⟨_, named ▸ jsonMembers_of_mem distinctB inside⟩
      · rintro ⟨value, there⟩
        rcases exists_child_of_jsonMembers there with ⟨b, inside, rfl, _⟩
        rcases backward b inside with ⟨a, member, named⟩
        exact ⟨_, named ▸ jsonMembers_of_mem distinctA member⟩
    · rcases exists_child_of_jsonMembers here with ⟨a, member, rfl, rfl⟩
      rcases forward a member with ⟨b, inside, named, like⟩
      have same := named ▸ jsonMembers_of_mem distinctB inside
      rw [there, Option.some_inj] at same
      rw [same]
      exact like

/-- The loop along two arrays. -/
theorem compareElements_iff {as bs : List Item} {compare : Item -> Item -> Bool} :
    compareElements compare as bs = true ↔ List.Forall₂ (fun a b => compare a b = true) as bs := by
  induction as generalizing bs with
  | nil =>
      cases bs with
      | nil => exact iff_of_true rfl .nil
      | cons b bs => exact iff_of_false Bool.false_ne_true (fun both => nomatch both)
  | cons a as ih =>
      cases bs with
      | nil => exact iff_of_false Bool.false_ne_true (fun both => nomatch both)
      | cons b bs =>
          rw [compareElements, List.forall₂_cons, ← ih]
          by_cases head : compare a b = true
          · rw [if_pos head, and_iff_right head]
          · rw [if_neg head]
            exact iff_of_false Bool.false_ne_true fun both => head both.1

/-- One of the two loops along an object: every member has a partner of its name that
compares equal.  Names that differ in the mode make the lookup find that partner and
no other one. -/
theorem compareMembers_iff {children : List Item} {object : Item} {compare : Item -> Item -> Bool}
    (named : ∀ child ∈ children, child.string.isSome) (distinct : DistinctNamesIn caseSensitive object.child) :
    compareMembers compare object caseSensitive children = true ↔ ∀ element ∈ children,
      ∃ found ∈ object.child, found.nameIn caseSensitive = element.nameIn caseSensitive ∧
        compare element found = true := by
  rw [compareMembers, List.all_eq_true]
  refine forall₂_congr fun element member => ?_
  rcases Option.isSome_iff_exists.mp (named element member) with ⟨string, stored⟩
  rw [stored, Option.bind_some, nameIn_of_string stored, getMember]
  cases looked : getObjectItem object string caseSensitive with
  | none =>
      apply iff_of_false Bool.false_ne_true
      rintro ⟨found, inside, same, _⟩
      exact getObjectItem_eq_none distinct looked (same ▸ List.mem_map_of_mem inside)
  | some position =>
      rcases getObjectItem_eq_some distinct looked with ⟨member, there, same⟩
      rw [Option.bind_some, there]
      constructor
      · exact fun equal => ⟨member, List.mem_of_getElem? there, same, equal⟩
      · rintro ⟨found, inside, sameName, equal⟩
        have unique := List.inj_on_of_nodup_map distinct.2 inside (List.mem_of_getElem? there)
          (sameName.trans same.symm)
        rwa [unique] at equal

theorem forall₂_congr_of_mem {α β : Type} {related similar : α -> β -> Prop} {as : List α} {bs : List β}
    (same : ∀ a ∈ as, ∀ b ∈ bs, related a b ↔ similar a b) :
    List.Forall₂ related as bs ↔ List.Forall₂ similar as bs := by
  induction as generalizing bs with
  | nil => rw [List.forall₂_nil_left_iff, List.forall₂_nil_left_iff]
  | cons a as ih =>
      cases bs with
      | nil => rw [List.forall₂_nil_right_iff, List.forall₂_nil_right_iff]
      | cons b bs =>
          rw [List.forall₂_cons, List.forall₂_cons, same a List.mem_cons_self b List.mem_cons_self,
            ih fun other member next inside =>
              same other (List.mem_cons_of_mem _ member) next (List.mem_cons_of_mem _ inside)]

/-- On trees of different names `cJSON_Compare` is a relation between their values:
same shape, same names, and scalars that are close to each other.  The budget must
exceed the height of one of the two trees. -/
theorem compareItems_iff {fuel : Nat} {a b : Item} (enough : a.height < fuel ∨ b.height < fuel)
    (distinctA : a.DistinctKeysIn caseSensitive) (distinctB : b.DistinctKeysIn caseSensitive) :
    compareItems fuel a b caseSensitive = true ↔
      Json.Like Scalar.Close (a.json caseSensitive) (b.json caseSensitive) := by
  induction fuel generalizing a b with
  | zero => omega
  | succ fuel ih =>
      rw [compareItems]
      by_cases sameBase : a.base = b.base
      · rw [if_neg (not_not.mpr sameBase)]
        have scalars (notNull : a.base ≠ .null) (notArray : a.base ≠ .array) (notObject : a.base ≠ .object) :
            Json.Like Scalar.Close (a.json caseSensitive) (b.json caseSensitive) ↔
              (scalarOf a).Close (scalarOf b) := by
          rw [json_scalar notNull notArray notObject, json_scalar (sameBase ▸ notNull) (sameBase ▸ notArray)
            (sameBase ▸ notObject), Json.like_scalar_iff]
        have texts : (match a.fields.valuestring, b.fields.valuestring with
            | some aString, some bString => compareBy id aString bString == 0
            | _, _ => false) = true ↔
              (Scalar.string (a.fields.valuestring.map text)).Close (.string (b.fields.valuestring.map text)) := by
          cases a.fields.valuestring with
          | none => exact iff_of_false Bool.false_ne_true id
          | some aString =>
              cases b.fields.valuestring with
              | none => exact iff_of_false Bool.false_ne_true id
              | some bString => exact beq_iff_eq.trans cstrCmp_eq_zero
        cases kind : a.base with
        | array =>
            have arrayA : a.isArray = true := beq_iff_eq.mpr kind
            have arrayB : b.isArray = true := beq_iff_eq.mpr (sameBase ▸ kind)
            rw [json_array arrayA, json_array arrayB, Json.like_array_iff, List.forall₂_map_left_iff,
              List.forall₂_map_right_iff]
            apply compareElements_iff.trans
            apply forall₂_congr_of_mem
            intro element member found inside
            exact ih (enough.imp (height_lt_of_mem member) (height_lt_of_mem inside)) (distinctA.child member)
              (distinctB.child inside)
        | object =>
            have objectA : a.isObject = true := beq_iff_eq.mpr kind
            have objectB : b.isObject = true := beq_iff_eq.mpr (sameBase ▸ kind)
            have namesA := distinctA.names objectA
            have namesB := distinctB.names objectB
            have forward : ∀ element ∈ a.child, ∀ found ∈ b.child,
                (compareItems fuel element found caseSensitive = true ↔
                  Json.Like Scalar.Close (element.json caseSensitive) (found.json caseSensitive)) :=
              fun element member found inside =>
                ih (enough.imp (height_lt_of_mem member) (height_lt_of_mem inside)) (distinctA.child member)
                  (distinctB.child inside)
            have backward : ∀ element ∈ b.child, ∀ found ∈ a.child,
                (compareItems fuel element found caseSensitive = true ↔
                  Json.Like Scalar.Close (element.json caseSensitive) (found.json caseSensitive)) :=
              fun element member found inside =>
                ih (enough.symm.imp (height_lt_of_mem member) (height_lt_of_mem inside))
                  (distinctB.child member) (distinctA.child inside)
            rw [json_object objectA, json_object objectB, like_members_iff namesA.2 namesB.2, Bool.and_eq_true,
              compareMembers_iff namesA.1 namesB, compareMembers_iff namesB.1 namesA]
            constructor
            · rintro ⟨first, second⟩
              refine ⟨fun element member => ?_, fun element member => ?_⟩
              · rcases first element member with ⟨found, inside, named, equal⟩
                exact ⟨found, inside, named, (forward element member found inside).mp equal⟩
              · rcases second element member with ⟨found, inside, named, _⟩
                exact ⟨found, inside, named⟩
            · rintro ⟨first, second⟩
              refine ⟨fun element member => ?_, fun element member => ?_⟩
              · rcases first element member with ⟨found, inside, named, like⟩
                exact ⟨found, inside, named, (forward element member found inside).mpr like⟩
              · rcases second element member with ⟨found, inside, named⟩
                rcases first found inside with ⟨other, otherMember, otherNamed, like⟩
                -- the member that is found for it is the member itself
                cases List.inj_on_of_nodup_map namesB.2 otherMember member (otherNamed.trans named)
                refine ⟨found, inside, named, (backward _ member found inside).mpr ?_⟩
                exact like.symm fun _ _ close => close.symm
        | null =>
            rw [json_isNull_iff.mpr (beq_iff_eq.mpr kind), json_isNull_iff.mpr (beq_iff_eq.mpr (sameBase ▸ kind))]
            exact iff_of_true rfl .null
        | invalid =>
            rw [scalars (by rw [kind]; decide) (by rw [kind]; decide) (by rw [kind]; decide), scalarOf, kind]
            exact iff_of_false Bool.false_ne_true id
        | false =>
            rw [scalars (by rw [kind]; decide) (by rw [kind]; decide) (by rw [kind]; decide), scalarOf, scalarOf,
              kind, ← sameBase, kind]
            exact iff_of_true rfl trivial
        | true =>
            rw [scalars (by rw [kind]; decide) (by rw [kind]; decide) (by rw [kind]; decide), scalarOf, scalarOf,
              kind, ← sameBase, kind]
            exact iff_of_true rfl trivial
        | number =>
            rw [scalars (by rw [kind]; decide) (by rw [kind]; decide) (by rw [kind]; decide), scalarOf, scalarOf,
              kind, ← sameBase, kind]
            exact Iff.rfl
        | string =>
            rw [scalars (by rw [kind]; decide) (by rw [kind]; decide) (by rw [kind]; decide), scalarOf, scalarOf,
              kind, ← sameBase, kind]
            exact texts
        | raw =>
            rw [scalars (by rw [kind]; decide) (by rw [kind]; decide) (by rw [kind]; decide), scalarOf, scalarOf,
              kind, ← sameBase, kind]
            exact texts.trans (Scalar.close_raw_iff _ _).symm
      · rw [if_pos sameBase]
        exact iff_of_false Bool.false_ne_true fun like =>
          sameBase (base_eq_of_like (fun _ _ close => close.base) like)

theorem cjsonCompare_iff_like {a b : Item} (distinctA : a.DistinctKeysIn caseSensitive)
    (distinctB : b.DistinctKeysIn caseSensitive) :
    cjsonCompare a b caseSensitive = true ↔
      Json.Like Scalar.Close (a.json caseSensitive) (b.json caseSensitive) :=
  compareItems_iff (Or.inl (Nat.lt_succ_self _)) distinctA distinctB

/-! ## Documents with small numbers -/

theorem Plain.only {value : Json Bytes Scalar} (plain : Plain value) :
    Json.Only (fun scalar => Plain (.scalar scalar)) value := by
  induction plain with
  | null => exact .null
  | false => exact .scalar .false
  | true => exact .scalar .true
  | number fits => exact .scalar (.number fits)
  | string bytes => exact .scalar (.string bytes)
  | array _ ih => exact .array ih
  | object _ ih => exact .object ih

/-- Among the scalars of documents with small numbers, alike ones are equal. -/
theorem close_iff_eq {first second : Scalar} (plain : Plain (.scalar first)) (otherPlain : Plain (.scalar second)) :
    first.Close second ↔ first = second := by
  constructor
  · intro close
    have kinds := close.base
    cases plain with
    | false => cases otherPlain <;> first | rfl | cases kinds
    | true => cases otherPlain <;> first | rfl | cases kinds
    | number fits =>
        cases otherPlain with
        | number otherFits => rw [eq_of_compareDouble_ofInt fits otherFits close]
        | _ => cases kinds
    | string bytes =>
        cases otherPlain with
        | string other => exact congrArg (Scalar.string ∘ some) close
        | _ => cases kinds
  · rintro rfl
    cases plain with
    | false => trivial
    | true => trivial
    | number fits => exact compareDouble_ofInt fits
    | string bytes => exact rfl

/-- `cJSON_Compare` decides whether two documents have one value.  Numbers are
compared with a tolerance, so they have to be integers for that, and no string may be
NULL. -/
theorem cjsonCompare_iff {a b : Item} (distinctA : a.DistinctKeysIn caseSensitive)
    (distinctB : b.DistinctKeysIn caseSensitive) (plainA : Plain (a.json caseSensitive))
    (plainB : Plain (b.json caseSensitive)) :
    cjsonCompare a b caseSensitive = true ↔ a.json caseSensitive = b.json caseSensitive :=
  (cjsonCompare_iff_like distinctA distinctB).trans
    (Json.like_iff_eq plainA.only plainB.only fun _ _ => close_iff_eq)

/-- `cJSON_Compare` takes documents of one value for equal. -/
theorem cjsonCompare_of_json {a b : Item} (distinctA : a.DistinctKeysIn caseSensitive)
    (distinctB : b.DistinctKeysIn caseSensitive)
    (same : a.json caseSensitive = b.json caseSensitive) (plain : Plain (a.json caseSensitive)) :
    cjsonCompare a b caseSensitive = true :=
  (cjsonCompare_iff distinctA distinctB plain (same ▸ plain)).mpr same

end Values

/-- `cJSON_Compare` decides whether two documents denote one value, whichever way
round they are given.  One and the same node is equal to itself, so that the early
return for identical pointers changes no answer. -/
theorem cjsonCompare_decides (a b : Item) (caseSensitive : Bool) (readA : a.value?.isSome = true)
    (readB : b.value?.isSome = true) (distinctA : a.DistinctKeysIn caseSensitive)
    (distinctB : b.DistinctKeysIn caseSensitive) :
    (cjsonCompare a b caseSensitive = true ↔ a.json caseSensitive = b.json caseSensitive) ∧
      (∀ copy, cjsonDuplicate a = some copy -> cjsonCompare a copy caseSensitive = true ∧
        cjsonCompare copy a caseSensitive = true) ∧
      cjsonCompare a a caseSensitive = true ∧
      cjsonCompare a b caseSensitive = cjsonCompare b a caseSensitive ∧
      ∀ c, c.value?.isSome = true -> c.DistinctKeysIn caseSensitive ->
        cjsonCompare a b caseSensitive = true -> cjsonCompare b c caseSensitive = true ->
          cjsonCompare a c caseSensitive = true := by
  have plainA := @plain_of_value? caseSensitive a readA
  have plainB := @plain_of_value? caseSensitive b readB
  have decides := cjsonCompare_iff distinctA distinctB plainA plainB
  refine ⟨decides, fun copy made => ?_, cjsonCompare_of_json distinctA distinctA rfl plainA, ?_, ?_⟩
  · have shallow := height_le_of_copied made
    rcases @duplicateRec_eq caseSensitive a 0 shallow distinctA with ⟨other, copied, same⟩
    cases made.symm.trans copied
    exact ⟨cjsonCompare_of_json distinctA same.wellFormed.distinct same.json.symm plainA,
      cjsonCompare_of_json same.wellFormed.distinct distinctA same.json (same.json.symm ▸ plainA)⟩
  · rw [Bool.eq_iff_iff, decides, cjsonCompare_iff distinctB distinctA plainB plainA]
    exact eq_comm
  · intro c readC distinctC first second
    have plainC := @plain_of_value? caseSensitive c readC
    rw [decides] at first
    rw [cjsonCompare_iff distinctB distinctC plainB plainC] at second
    exact cjsonCompare_of_json distinctA distinctC (first.trans second) plainA

/-- The object with two members that are null. -/
def nullMembers (first second : Bytes) : Item :=
  .mk { type_ := { base := .object } }
    [.mk { type_ := { base := .null }, string := some first } [] .null,
      .mk { type_ := { base := .null }, string := some second } [] .null] (.at 1)

theorem nullMembers_distinctKeysIn {first second : Bytes} {caseSensitive : Bool}
    (apart : foldName caseSensitive first ≠ foldName caseSensitive second) :
    (nullMembers first second).DistinctKeysIn caseSensitive := by
  refine .mk (fun _ => ⟨fun item member => ?_, ?_⟩) (fun item member => ?_)
  · rcases List.mem_cons.mp member with rfl | later
    · rfl
    · rw [List.mem_singleton.mp later]
      rfl
  · rw [List.map_cons, List.map_singleton, List.nodup_cons, List.mem_singleton]
    exact ⟨apart, List.nodup_singleton _⟩
  · rcases List.mem_cons.mp member with rfl | later
    · exact .mk (fun object => by cases object) (fun _ impossible => by cases impossible)
    · rw [List.mem_singleton.mp later]
      exact .mk (fun object => by cases object) (fun _ impossible => by cases impossible)

theorem nullMembers_wellFormed {first second : Bytes} {caseSensitive : Bool}
    (apart : foldName caseSensitive first ≠ foldName caseSensitive second) :
    (nullMembers first second).WellFormed caseSensitive := by
  refine ⟨.mk (fun _ => rfl) (fun item member => ?_), nullMembers_distinctKeysIn apart⟩
  rcases List.mem_cons.mp member with rfl | later
  · exact .mk (fun nonempty => absurd rfl nonempty) (fun _ impossible => by cases impossible)
  · rw [List.mem_singleton.mp later]
    exact .mk (fun nonempty => absurd rfl nonempty) (fun _ impossible => by cases impossible)

/-- The objects `{"A": null, "a": null}` and `{"a": null, "A": null}`, with regard to case. -/
theorem cjsonCompare_decides_nullMembers :
    (cjsonCompare (nullMembers [65] [97]) (nullMembers [97] [65]) true = true ↔
        (nullMembers [65] [97]).json true = (nullMembers [97] [65]).json true) ∧
      cjsonCompare (nullMembers [65] [97]) (nullMembers [97] [65]) true = true := by
  have both := cjsonCompare_decides (nullMembers [65] [97]) (nullMembers [97] [65]) true rfl rfl
    (nullMembers_distinctKeysIn (by decide)) (nullMembers_distinctKeysIn (by decide))
  exact ⟨both.1, by decide⟩

end CJson
