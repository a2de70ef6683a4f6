import CJson.Comparison

/-!
# What a comparison depends on

`cJSON_Compare` looks names up in one object while it walks along the other one, and where
names repeat a lookup finds only the first of them.  Even so the answer does not depend on the
order of its arguments, because an object is walked both ways round, and it does not depend on
anything that copying changes.
-/

namespace CJson

open CString Item

variable {caseSensitive : Bool}

/-! ## The order of the arguments -/

theorem compareElements_comm {compare : Item -> Item -> Bool} {as bs : List Item}
    (comm : ∀ a ∈ as, ∀ b ∈ bs, compare a b = compare b a) :
    compareElements compare as bs = compareElements compare bs as := by
  induction as generalizing bs with
  | nil => cases bs <;> rfl
  | cons a as ih =>
      cases bs with
      | nil => rfl
      | cons b bs =>
          rw [compareElements, compareElements, comm a List.mem_cons_self b List.mem_cons_self,
            ih fun other member next inside =>
              comm other (List.mem_cons_of_mem _ member) next (List.mem_cons_of_mem _ inside)]

/-- The two loops along two objects change places. -/
theorem compareItems_comm (fuel : Nat) (a b : Item) (caseSensitive : Bool) :
    compareItems fuel a b caseSensitive = compareItems fuel b a caseSensitive := by
  induction fuel generalizing a b with
  | zero => rfl
  | succ fuel ih =>
      rw [compareItems, compareItems]
      by_cases sameBase : a.base = b.base
      · rw [if_neg (not_not.mpr sameBase), if_neg (not_not.mpr sameBase.symm), sameBase]
        cases b.base with
        | number => exact compareDouble_comm _ _
        | array => exact compareElements_comm fun element _ other _ => ih element other
        | object => exact Bool.and_comm _ _
        | string =>
            cases a.fields.valuestring <;> cases b.fields.valuestring <;> try rfl
            exact Bool.eq_iff_iff.mpr (by rw [beq_iff_eq, beq_iff_eq, cstrCmp_eq_zero, cstrCmp_eq_zero, eq_comm])
        | raw =>
            cases a.fields.valuestring <;> cases b.fields.valuestring <;> try rfl
            exact Bool.eq_iff_iff.mpr (by rw [beq_iff_eq, beq_iff_eq, cstrCmp_eq_zero, cstrCmp_eq_zero, eq_comm])
        | _ => rfl
      · rw [if_pos sameBase, if_pos (Ne.symm sameBase)]

/-! ## The budget -/

theorem compareElements_congr {compare other : Item -> Item -> Bool} {as bs : List Item}
    (same : ∀ a ∈ as, ∀ b ∈ bs, compare a b = other a b) :
    compareElements compare as bs = compareElements other as bs := by
  induction as generalizing bs with
  | nil => cases bs <;> rfl
  | cons a as ih =>
      cases bs with
      | nil => rfl
      | cons b bs =>
          rw [compareElements, compareElements, same a List.mem_cons_self b List.mem_cons_self,
            ih fun next member last inside =>
              same next (List.mem_cons_of_mem _ member) last (List.mem_cons_of_mem _ inside)]

theorem mem_child_of_getMember {object member : Item} {string : Bytes}
    (found : getMember object string caseSensitive = some member) : member ∈ object.child := by
  rw [getMember] at found
  rcases Option.bind_eq_some_iff.mp found with ⟨position, _, there⟩
  exact List.mem_of_getElem? there

theorem compareMembers_congr {compare other : Item -> Item -> Bool} {object : Item} {children : List Item}
    (same : ∀ element ∈ children, ∀ found ∈ object.child, compare element found = other element found) :
    compareMembers compare object caseSensitive children =
      compareMembers other object caseSensitive children := by
  rw [Bool.eq_iff_iff, compareMembers, compareMembers, List.all_eq_true, List.all_eq_true]
  refine forall₂_congr fun element member => ?_
  cases looked : element.string.bind fun string => getMember object string caseSensitive with
  | none => exact Iff.rfl
  | some found =>
      rcases Option.bind_eq_some_iff.mp looked with ⟨string, _, there⟩
      simp only [same element member found (mem_child_of_getMember there)]

/-- The height of either tree is budget enough. -/
theorem compareItems_succ {fuel : Nat} {a b : Item} (enough : a.height < fuel ∨ b.height < fuel) :
    compareItems (fuel + 1) a b caseSensitive = compareItems fuel a b caseSensitive := by
  induction fuel generalizing a b with
  | zero => omega
  | succ fuel ih =>
      have below : ∀ element ∈ a.child, ∀ other ∈ b.child,
          compareItems (fuel + 1) element other caseSensitive = compareItems fuel element other caseSensitive :=
        fun element member other inside =>
          ih (enough.imp (height_lt_of_mem member) (height_lt_of_mem inside))
      have above : ∀ element ∈ b.child, ∀ other ∈ a.child,
          compareItems (fuel + 1) element other caseSensitive = compareItems fuel element other caseSensitive := by
        intro element member other inside
        rw [compareItems_comm, below other inside element member, compareItems_comm]
      rw [compareItems, compareItems]
      split
      · rfl
      · split <;> try rfl
        · exact compareElements_congr below
        · rw [compareMembers_congr below, compareMembers_congr above]

theorem compareItems_enough {fuel more : Nat} {a b : Item} (enough : a.height < fuel ∨ b.height < fuel)
    (le : fuel ≤ more) : compareItems more a b caseSensitive = compareItems fuel a b caseSensitive := by
  induction more, le using Nat.le_induction with
  | base => rfl
  | succ more le ih =>
      rw [compareItems_succ (enough.imp (Nat.lt_of_lt_of_le · le) (Nat.lt_of_lt_of_le · le)), ih]

theorem cjsonCompare_comm (a b : Item) (caseSensitive : Bool) :
    cjsonCompare a b caseSensitive = cjsonCompare b a caseSensitive := by
  rw [cjsonCompare, cjsonCompare, compareItems_comm (b.height + 1)]
  rcases Nat.le_total a.height b.height with le | le
  · exact (compareItems_enough (Or.inl (Nat.lt_succ_self _)) (Nat.succ_le_succ le)).symm
  · exact compareItems_enough (Or.inr (Nat.lt_succ_self _)) (Nat.succ_le_succ le)

/-! ## What is read of a tree -/

/-- The fields that a comparison reads. -/
def Fields.contents (fields : Fields) : Fields where
  type_ := { base := fields.type_.base }
  valuestring := fields.valuestring.map text
  valuedouble := fields.valuedouble
  string := fields.string.map text

mutual

/-- A tree reduced to what a comparison reads. -/
def Item.contents : Item -> Item
  | .mk fields child _ => .mk fields.contents (contentsOf child) .null

def Item.contentsOf : List Item -> List Item
  | [] => []
  | item :: rest => contents item :: contentsOf rest

end

theorem contentsOf_eq_map (children : List Item) : contentsOf children = children.map contents := by
  induction children with
  | nil => rfl
  | cons item rest ih => rw [contentsOf, ih, List.map_cons]

@[simp] theorem fields_contents (item : Item) : item.contents.fields = item.fields.contents := by
  cases item
  rw [contents, fields_mk, fields_mk]

@[simp] theorem child_contents (item : Item) : item.contents.child = item.child.map contents := by
  cases item
  rw [contents, child_mk, child_mk, contentsOf_eq_map]

@[simp] theorem base_contents (item : Item) : item.contents.base = item.base := by
  rw [Item.base, fields_contents]
  rfl

@[simp] theorem string_contents (item : Item) : item.contents.string = item.string.map text := by
  rw [Item.string, fields_contents]
  rfl

/-- Copying keeps what is read. -/
theorem contents_of_duplicateRec {item copy : Item} {depth : Nat} (made : duplicateRec item depth = some copy) :
    copy.contents = item.contents := by
  induction item using Item.induct generalizing depth copy with
  | node fields child headPrev ih =>
      rw [duplicateRec] at made
      rcases Option.bind_eq_some_iff.mp made with ⟨copies, madeBelow, same⟩
      cases same
      have below : copies.map contents = child.map contents := by
        have each := forall₂_of_duplicateChildren madeBelow
        clear made madeBelow
        induction each with
        | nil => rfl
        | cons copied _ rest =>
            rw [List.map_cons, List.map_cons, ih _ List.mem_cons_self copied,
              rest fun item member => ih item (List.mem_cons_of_mem _ member)]
      rw [contents, contents, contentsOf_eq_map, contentsOf_eq_map, below]
      congr 1
      rw [Fields.contents, Fields.contents, Fields.duplicate, text_cjsonStrdup]
      split
      · rfl
      · rw [text_cjsonStrdup]

theorem compareBy_beq_congr {fold : UInt8 -> UInt8} (keeps : KeepsTerminator fold) {left right other last : Bytes}
    (sameLeft : text left = text other) (sameRight : text right = text last) :
    (compareBy fold left right == 0) = (compareBy fold other last == 0) := by
  rw [Bool.eq_iff_iff, beq_iff_eq, beq_iff_eq, (compareBy_spec keeps _ _).2, (compareBy_spec keeps _ _).2,
    folded_congr fold sameLeft, folded_congr fold sameRight]

/-- A lookup reads no more. -/
theorem getObjectItem_contents (object : Item) (string : Bytes) :
    getObjectItem object.contents (text string) caseSensitive = getObjectItem object string caseSensitive := by
  rw [getObjectItem_congr (text_text string), getObjectItem, getObjectItem, child_contents, List.findIdx?_map,
    List.findIdx?_map]
  congr 1
  · ext position
    rw [List.getElem?_map]
    cases object.child[position]? with
    | none => rfl
    | some member => rw [Option.map_some, Option.bind_some, Option.bind_some, string_contents, Option.isSome_map]
  · congr 2
    · ext member
      rw [Function.comp_apply, string_contents]
      cases member.string with
      | none => rfl
      | some name => exact compareBy_beq_congr keepsTerminator_id (text_text name) rfl
    · ext member
      rw [Function.comp_apply, string_contents]
      cases member.string with
      | none => rfl
      | some name => exact compareBy_beq_congr keepsTerminator_toAsciiLowercase rfl (text_text name)

theorem getMember_contents (object : Item) (string : Bytes) :
    getMember object.contents (text string) caseSensitive =
      (getMember object string caseSensitive).map contents := by
  rw [getMember, getMember, getObjectItem_contents]
  cases getObjectItem object string caseSensitive with
  | none => rfl
  | some position => rw [Option.bind_some, Option.bind_some, child_contents, List.getElem?_map]

theorem compareElements_map {compare other : Item -> Item -> Bool} {as bs : List Item}
    (same : ∀ a ∈ as, ∀ b ∈ bs, compare a.contents b.contents = other a b) :
    compareElements compare (as.map contents) (bs.map contents) = compareElements other as bs := by
  induction as generalizing bs with
  | nil => cases bs <;> rfl
  | cons a as ih =>
      cases bs with
      | nil => rfl
      | cons b bs =>
          have rest := ih fun next member last inside =>
            same next (List.mem_cons_of_mem _ member) last (List.mem_cons_of_mem _ inside)
          rw [List.map_cons, List.map_cons, compareElements, compareElements,
            same a List.mem_cons_self b List.mem_cons_self, rest]

theorem compareMembers_map {compare other : Item -> Item -> Bool} {object : Item} {children : List Item}
    (same : ∀ element ∈ children, ∀ found ∈ object.child,
      compare element.contents found.contents = other element found) :
    compareMembers compare object.contents caseSensitive (children.map contents) =
      compareMembers other object caseSensitive children := by
  rw [Bool.eq_iff_iff, compareMembers, compareMembers, List.all_eq_true, List.all_eq_true, List.forall_mem_map]
  refine forall₂_congr fun element member => ?_
  rw [string_contents]
  cases element.string with
  | none => exact Iff.rfl
  | some string =>
      rw [Option.map_some, Option.bind_some, Option.bind_some, getMember_contents]
      cases looked : getMember object string caseSensitive with
      | none => exact Iff.rfl
      | some found => simp only [Option.map_some, same element member found (mem_child_of_getMember looked)]

/-- A comparison sees a tree only through what it reads of it. -/
theorem compareItems_contents (fuel : Nat) (a b : Item) :
    compareItems fuel a.contents b.contents caseSensitive = compareItems fuel a b caseSensitive := by
  induction fuel generalizing a b with
  | zero => rfl
  | succ fuel ih =>
      rw [compareItems, compareItems, base_contents, base_contents, child_contents, child_contents,
        compareElements_map fun element _ other _ => ih element other,
        compareMembers_map fun element _ other _ => ih element other,
        compareMembers_map fun element _ other _ => ih element other, fields_contents, fields_contents]
      have texts : ∀ left right : Bytes, (compareBy id (text left) (text right) == 0) =
          (compareBy id left right == 0) :=
        fun left right => compareBy_beq_congr keepsTerminator_id (text_text left) (text_text right)
      rw [Fields.contents, Fields.contents]
      cases a.fields.valuestring <;> cases b.fields.valuestring <;> first | rfl | simp only [Option.map_some, texts]

mutual

theorem height_contents : ∀ item : Item, item.contents.height = item.height
  | .mk fields child headPrev => by rw [contents, height, height, heightBelow_contentsOf child]

theorem heightBelow_contentsOf : ∀ children : List Item, heightBelow (contentsOf children) = heightBelow children
  | [] => rfl
  | item :: rest => by
      rw [contentsOf, heightBelow, heightBelow, height_contents item, heightBelow_contentsOf rest]

end

theorem cjsonCompare_contents (a b : Item) :
    cjsonCompare a.contents b.contents caseSensitive = cjsonCompare a b caseSensitive := by
  rw [cjsonCompare, cjsonCompare, height_contents, compareItems_contents]

/-- `cJSON_Compare` of two trees that share no node answers the same whichever way round they are
given, and the same for a copy as for the original: for trees of every kind, with names that
repeat or are missing, with strings that are NULL and numbers that are none. -/
theorem cjsonCompare_impartial (a b : Item) (caseSensitive : Bool) :
    cjsonCompare a b caseSensitive = cjsonCompare b a caseSensitive ∧
      ∀ copy, cjsonDuplicate a = some copy ->
        cjsonCompare copy b caseSensitive = cjsonCompare a b caseSensitive ∧
        cjsonCompare b copy caseSensitive = cjsonCompare b a caseSensitive := by
  refine ⟨cjsonCompare_comm a b caseSensitive, fun copy made => ?_⟩
  have same := contents_of_duplicateRec made
  have once : cjsonCompare copy b caseSensitive = cjsonCompare a b caseSensitive := by
    rw [← cjsonCompare_contents, same, cjsonCompare_contents]
  exact ⟨once, by rw [cjsonCompare_comm b, once, cjsonCompare_comm]⟩

/-! ## Trees that equal their copies -/

mutual

/-- No number in the tree is infinite or none, no string is NULL and no node is
without a type, as far down as containers go.  Below other nodes the comparison does
not look, and so neither does this. -/
def Item.Definite : Item -> Prop
  | .mk fields child _ =>
      match fields.type_.base with
      | .invalid => False
      | .number => ∃ value, fields.valuedouble = .finite value
      | .string | .raw => fields.valuestring.isSome
      | .array | .object => AllDefinite child
      | _ => True

def Item.AllDefinite : List Item -> Prop
  | [] => True
  | item :: rest => Definite item ∧ AllDefinite rest

end

theorem allDefinite_iff {children : List Item} : AllDefinite children ↔ ∀ item ∈ children, item.Definite := by
  induction children with
  | nil => exact iff_of_true trivial fun _ impossible => nomatch impossible
  | cons item rest ih => rw [AllDefinite, ih, List.forall_mem_cons]

/-- The distance of a number to itself is 0, unless there is no such distance. -/
theorem compareDouble_self_iff (double : Binary64) :
    compareDouble double double = true ↔ ∃ value, double = .finite value := by
  cases double with
  | nan => exact iff_of_false Bool.false_ne_true fun ⟨_, impossible⟩ => nomatch impossible
  | infinite negative =>
      apply iff_of_false _ fun ⟨_, impossible⟩ => nomatch impossible
      cases negative <;> exact Bool.false_ne_true
  | finite value =>
      refine iff_of_true ?_ ⟨value, rfl⟩
      rw [compareDouble, ite_self, Binary64.sub, sub_self, Binary64.round_zero, Binary64.abs, Binary64.abs,
        abs_zero, Binary64.scale]
      exact Binary64.le_zero_round (mul_nonneg (abs_nonneg value) (by positivity))

theorem compareItems_self {fuel : Nat} {item : Item} (enough : item.height < fuel)
    (distinct : item.DistinctKeysIn caseSensitive) :
    compareItems fuel item item caseSensitive = true ↔ item.Definite := by
  induction fuel generalizing item with
  | zero => omega
  | succ fuel ih =>
      have below : ∀ next ∈ item.child, compareItems fuel next next caseSensitive = true ↔ next.Definite :=
        fun next member => ih (height_lt_of_mem member enough) (distinct.child member)
      rw [compareItems, if_neg (not_not.mpr rfl)]
      cases item with
      | mk fields child headPrev =>
          rw [child_mk] at below
          have same : ∀ string : Bytes, (compareBy id string string == 0) = true :=
            fun string => beq_iff_eq.mpr (cstrCmp_eq_zero.mpr rfl)
          rw [Definite, base_mk, child_mk, fields_mk]
          cases kind : fields.type_.base with
          | invalid => exact iff_of_false Bool.false_ne_true id
          | false => exact iff_of_true rfl trivial
          | true => exact iff_of_true rfl trivial
          | null => exact iff_of_true rfl trivial
          | number => exact compareDouble_self_iff _
          | string | raw =>
              cases fields.valuestring with
              | none => exact Iff.rfl
              | some string => exact iff_of_true (same string) rfl
          | array =>
              simp only [compareElements_iff, List.forall₂_same, allDefinite_iff]
              exact forall₂_congr below
          | object =>
              have names := distinct.names (by rw [isObject, base_mk, kind]; rfl)
              simp only [Bool.and_self, allDefinite_iff]
              refine (compareMembers_iff names.1 names).trans (forall₂_congr fun element member => ?_)
              constructor
              · -- the member that a lookup finds is the member itself
                rintro ⟨other, inside, sameName, equal⟩
                cases List.inj_on_of_nodup_map names.2 inside member sameName
                exact (below _ member).mp equal
              · exact fun definite => ⟨element, member, rfl, (below element member).mpr definite⟩

/-- With names that are different, a tree is equal to its copies exactly if every value in it is
definite. -/
theorem cjsonCompare_copy_iff (item copy : Item) (caseSensitive : Bool)
    (distinct : item.DistinctKeysIn caseSensitive) (made : cjsonDuplicate item = some copy) :
    cjsonCompare item copy caseSensitive = true ↔ item.Definite := by
  rw [← cjsonCompare_contents, contents_of_duplicateRec made, cjsonCompare_contents]
  exact compareItems_self (Nat.lt_succ_self _) distinct

/-- Two members that are null are equal to their copies. -/
theorem cjsonCompare_copy_iff_nullMembers : ∃ copy, cjsonDuplicate (nullMembers [65] [97]) = some copy ∧
    (cjsonCompare (nullMembers [65] [97]) copy true = true ↔ (nullMembers [65] [97]).Definite) :=
  ⟨_, rfl, cjsonCompare_copy_iff _ _ true (nullMembers_distinctKeysIn (by decide)) rfl⟩

end CJson
