import CJson.PrintParse
import CJson.Impartial

/-!
# Printing and parsing back any number

The text of a tree denotes a tree again, also where numbers have a fraction, are
larger than an `int`, or are none at all.  `reread` is that tree.  It is not the
printed one: a number that `%1.15g` writes closely enough comes back as the
double nearest to those fifteen digits, what is infinite or not a number comes
back as `null`, and a string that is NULL comes back empty.

Two consequences are drawn.  `cJSON_Compare` takes the tree that is read back for
equal to the one that was printed, since it allows the same distance between two
numbers as the printer.  And the text is a normal form: what is read back is
printed as the same text again.
-/

namespace CJson

open CString Item

/-- A rational number that is a double: rounding does not change it. -/
def Binary64.Representable (value : ℚ) : Prop := Binary64.round value = .finite value

/-- What `snprintf` and `strtod` do with doubles: one writes digits, signs, an
exponent and the locale's decimal point, and starts with a digit or a sign; the
other one reads all of it, and exactly if seventeen digits have been written. -/
structure CLibrary.ReadsDoubles (library : CLibrary) : Prop extends CLibrary.ReadsIntegers library where
  characters : ∀ precision value, Binary64.Representable value ->
    ∀ byte ∈ library.formatG precision (.finite value),
      (isNumberByte byte = true ∧ byte ≠ 0x2E) ∨ byte = library.decimalPoint
  starts : ∀ precision value, Binary64.Representable value ->
    ∃ first rest, library.formatG precision (.finite value) = first :: rest ∧
      (first = 0x2D ∨ (48 ≤ first ∧ first ≤ 57))
  whole : ∀ precision value, Binary64.Representable value ->
    (library.strtod (library.formatG precision (.finite value))).2 =
      (library.formatG precision (.finite value)).length
  exact : ∀ value, Binary64.Representable value ->
    (library.strtod (library.formatG 17 (.finite value))).1 = .finite value
  point_not_letter : ∀ byte ∈ [0x6E, 0x75, 0x6C, 0x6C], byte ≠ library.decimalPoint

/-! ## The tree that is read back -/

/-- The number that is read back for a number node. -/
def rereadNumber (library : CLibrary) (name : Option Bytes) (fields : Fields) : Item :=
  match fields.valuedouble with
  | .finite _ => setNumber (named name) (library.strtod ((numberBuffer library fields).getD [])).1
  | _ => setLiteral (named name) .null 0

mutual

/-- The tree that the text of a tree denotes, as the member of a name.  Flags are
gone, a string is what stands in front of its terminator, and a number is what
`strtod` makes of its digits. -/
def reread (library : CLibrary) : Option Bytes -> Item -> Item
  | name, .mk fields child _ =>
      match fields.type_.base with
      | .null => setLiteral (named name) .null 0
      | .false => setLiteral (named name) .false 0
      | .true => setLiteral (named name) .true 1
      | .number => rereadNumber library name fields
      | .string => setString (named name) (text (fields.valuestring.getD []))
      | .array => finishContainer (named name) .array (rereadElements library child)
      | .object => finishContainer (named name) .object (rereadMembers library child)
      -- raw text may denote anything, and a node without a type has no text
      | .raw => named name
      | .invalid => named name

def rereadElements (library : CLibrary) : List Item -> List Item
  | [] => []
  | item :: rest => reread library none item :: rereadElements library rest

def rereadMembers (library : CLibrary) : List Item -> List Item
  | [] => []
  | item :: rest => reread library (some item.key) item :: rereadMembers library rest

end

theorem rereadElements_eq_map (library : CLibrary) (items : List Item) :
    rereadElements library items = items.map (reread library none) := by
  induction items with
  | nil => rfl
  | cons item rest hypothesis => rw [rereadElements, hypothesis, List.map_cons]

theorem rereadMembers_eq_map (library : CLibrary) (items : List Item) :
    rereadMembers library items = items.map (fun item => reread library (some item.key) item) := by
  induction items with
  | nil => rfl
  | cons item rest hypothesis => rw [rereadMembers, hypothesis, List.map_cons]

/-- A tree without raw text whose numbers are doubles and `int`s.  Numbers are what
the fields of the C struct can hold; raw text is printed as it is, and may be read
back as anything or not at all. -/
inductive Legible : Item -> Prop where
  | mk {fields : Fields} {child : List Item} {headPrev : HeadPrev}
      (raw : fields.type_.base ≠ .raw)
      (integer : fields.type_.base = .number -> FitsInt32 fields.valueint)
      (double : fields.type_.base = .number -> ∀ value, fields.valuedouble = .finite value ->
        Binary64.Representable value)
      (below : ∀ item ∈ child, Legible item) : Legible (.mk fields child headPrev)

/-! ## Numbers -/

section Numbers

variable {library : CLibrary} {fields : Fields} {value : ℚ}

/-- The decimal point is exchanged twice. -/
theorem numberCString_numberText {printed : Bytes}
    (characters : ∀ byte ∈ printed, (isNumberByte byte = true ∧ byte ≠ 0x2E) ∨ byte = library.decimalPoint) :
    numberCString library (numberText library printed) = printed := by
  unfold numberCString numberText
  rw [List.map_map]
  conv_rhs => rw [← List.map_id printed]
  apply List.map_congr_left
  intro byte inside
  rw [Function.comp_apply, id_eq]
  by_cases point : byte = library.decimalPoint
  · rw [if_pos point, if_pos rfl, point]
  · rw [if_neg point, if_neg]
    rcases characters byte inside with ⟨_, notPoint⟩ | same
    · exact notPoint
    · exact absurd same point

/-- What `snprintf` has written is one token. -/
theorem numberToken_formatG (doubles : library.ReadsDoubles) {precision : Nat}
    (representable : Binary64.Representable value) :
    NumberToken library (numberText library (library.formatG precision (.finite value)))
      (library.strtod (library.formatG precision (.finite value))).1 where
  bytes byte inside := by
    rcases List.mem_map.mp inside with ⟨source, sourceInside, rfl⟩
    by_cases point : source = library.decimalPoint
    · rw [if_pos point]
      rfl
    · rw [if_neg point]
      rcases doubles.characters precision value representable source sourceInside with ⟨digit, _⟩ | same
      · exact digit
      · exact absurd same point
  some empty := by
    rcases doubles.starts precision value representable with ⟨first, rest, split, _⟩
    rw [split] at empty
    cases empty
  value := by
    rw [numberCString_numberText (doubles.characters precision value representable), numberText,
      List.length_map, ← doubles.whole precision value representable]

theorem numberText_formatG_head (doubles : library.ReadsDoubles) {precision : Nat}
    (representable : Binary64.Representable value) :
    ∃ first rest, numberText library (library.formatG precision (.finite value)) = first :: rest ∧
      (first = 0x2D ∨ (48 ≤ first ∧ first ≤ 57)) := by
  rcases doubles.starts precision value representable with ⟨first, rest, split, start⟩
  refine ⟨first, numberText library rest, ?_, start⟩
  rw [split, numberText, numberText, List.map_cons, if_neg]
  rintro rfl
  rcases start with sign | ⟨low, high⟩
  · exact doubles.point_not_sign sign
  · have digit := doubles.point_not_digit
    simp [isDigit, low, high] at digit

/-- The text of a finite number is a token, and reads as `strtod` reads it.  Its first
byte is a digit or a minus sign, by which the parser tells a number from other values. -/
theorem PrintsAs.reads (doubles : library.ReadsDoubles) {printed : Bytes}
    (prints : PrintsAs library fields value printed) (integer : FitsInt32 fields.valueint)
    (representable : Binary64.Representable value) :
    NumberToken library (numberText library printed) (library.strtod printed).1 ∧
      ∃ first rest, numberText library printed = first :: rest ∧
        (first = 0x2D ∨ (48 ≤ first ∧ first ≤ 57)) := by
  cases prints with
  | integer same =>
      rw [numberText_decimalText doubles.toReadsIntegers, doubles.strtod_eq _ integer]
      exact ⟨numberToken_decimalText doubles.toReadsIntegers integer, decimalText_cons _⟩
  | short _ _ => exact ⟨numberToken_formatG doubles representable, numberText_formatG_head doubles representable⟩
  | long _ _ => exact ⟨numberToken_formatG doubles representable, numberText_formatG_head doubles representable⟩

end Numbers

/-! ## Trees -/

theorem stringToken_stringText_getD (string : Option Bytes) :
    StringToken (stringText string) (text (string.getD [])) := by
  cases string with
  | none => exact stringToken_stringText []
  | some block => exact stringToken_stringText block

/-- The rendering of a node derives the tree that is read back, under any name. -/
def ReadsAs (library : CLibrary) (format : Bool) (item : Item) : Prop :=
  ∀ depth limit name text, rendering library format depth item = some text ->
    depth + limit = nestingLimit -> Derives library (.value name) limit text [reread library name item]

section Trees

variable {library : CLibrary} {format : Bool}

theorem readsAs_elements {items : List Item} (each : ∀ item ∈ items, ReadsAs library format item)
    {depth limit : Nat} {text : Bytes} (nonempty : items ≠ [])
    (rendered : renderElements library format depth items = some text)
    (balance : depth + limit = nestingLimit) :
    Derives library (.entries .array) limit text (rereadElements library items) := by
  induction items generalizing text with
  | nil => exact absurd rfl nonempty
  | cons item rest hypothesis =>
      rw [renderElements] at rendered
      rcases Option.bind_eq_some_iff.mp rendered with ⟨front, frontFound, rendered⟩
      rcases Option.bind_eq_some_iff.mp rendered with ⟨back, backFound, same⟩
      cases same
      have derives := each item List.mem_cons_self depth limit none front frontFound balance
      cases rest with
      | nil =>
          cases backFound
          exact .last blank_nil (.element derives)
      | cons next rest =>
          have following := hypothesis (fun other inside => each other (List.mem_cons_of_mem _ inside))
            (List.cons_ne_nil _ _) backFound
          have space : arraySeparator format = 0x2C :: (if format then [0x20] else []) := by
            cases format <;> rfl
          have blank : Blank (if format then [0x20] else []) := by
            cases format with
            | false => exact blank_nil
            | true =>
                intro byte inside
                rw [List.mem_singleton.mp inside]
                decide
          rw [List.isEmpty_cons, if_neg Bool.false_ne_true, space]
          exact .more blank_nil blank (.element derives) following

theorem readsAs_members {items : List Item} (each : ∀ item ∈ items, ReadsAs library format item)
    {depth limit : Nat} {text tail : Bytes} (nonempty : items ≠ [])
    (rendered : renderMembers library format depth items = some text)
    (balance : depth + limit = nestingLimit) (blankTail : Blank tail) :
    ∃ core, text = indentation format depth ++ core ∧
      Derives library (.entries .object) limit (core ++ tail) (rereadMembers library items) := by
  induction items generalizing text with
  | nil => exact absurd rfl nonempty
  | cons item rest hypothesis =>
      rw [renderMembers] at rendered
      rcases Option.bind_eq_some_iff.mp rendered with ⟨front, frontFound, rendered⟩
      rcases Option.bind_eq_some_iff.mp rendered with ⟨back, backFound, same⟩
      cases same
      have derives := each item List.mem_cons_self depth limit (some item.key) front frontFound balance
      have gap : colon format = 0x3A :: (if format then [0x09] else []) := by
        cases format <;> rfl
      have blank : Blank (if format then [0x09] else []) := by
        cases format with
        | false => exact blank_nil
        | true => exact blank_replicate 1
      have entry : Derives library (.entry .object) limit
          (stringText item.string ++ (colon format ++ front)) [reread library (some item.key) item] := by
        rw [gap]
        exact .member (stringToken_stringText_getD item.string) blank_nil blank derives
      refine ⟨stringText item.string ++ (colon format ++ (front ++
        (objectSeparator format rest.isEmpty ++ back))), rfl, ?_⟩
      cases rest with
      | nil =>
          cases backFound
          have ended := Derives.last ((blank_newline format).append blankTail) entry
          simpa only [List.isEmpty_nil, objectSeparator_eq, if_pos, List.nil_append, List.append_nil,
            List.append_assoc, rereadMembers] using ended
      | cons next rest =>
          rcases hypothesis (fun other inside => each other (List.mem_cons_of_mem _ inside))
            (List.cons_ne_nil _ _) backFound with ⟨core, rfl, derivesRest⟩
          have more := Derives.more blank_nil ((blank_newline format).append (blank_indentation format depth))
            entry derivesRest
          rw [rereadMembers]
          simpa only [List.isEmpty_cons, objectSeparator_eq, if_neg Bool.false_ne_true, List.nil_append,
            List.cons_append, List.append_assoc] using more

theorem numberText_null (doubles : library.ReadsDoubles) :
    numberText library [0x6E, 0x75, 0x6C, 0x6C] = [0x6E, 0x75, 0x6C, 0x6C] := by
  unfold numberText
  conv_rhs => rw [← List.map_id [0x6E, 0x75, 0x6C, 0x6C]]
  apply List.map_congr_left
  intro byte inside
  rw [if_neg (doubles.point_not_letter byte inside)]
  rfl

theorem readsAs_number (doubles : library.ReadsDoubles) {fields : Fields} {name : Option Bytes} {limit : Nat}
    {printed : Bytes} (integer : FitsInt32 fields.valueint)
    (double : ∀ value, fields.valuedouble = .finite value -> Binary64.Representable value)
    (found : numberBuffer library fields = some printed) :
    Derives library (.value name) limit (numberText library printed) [rereadNumber library name fields] := by
  cases kind : fields.valuedouble with
  | finite value =>
      have prints := printsAs_of_numberBuffer kind found
      rcases prints.reads doubles integer (double value kind) with ⟨token, first, rest, split, start⟩
      rw [rereadNumber, kind, found, Option.getD_some]
      dsimp only
      rw [split] at token ⊢
      exact .number start token
  | nan =>
      rw [numberBuffer, kind] at found
      cases found
      rw [rereadNumber, kind, numberText_null doubles]
      exact .null
  | infinite negative =>
      rw [numberBuffer, kind] at found
      cases found
      rw [rereadNumber, kind, numberText_null doubles]
      exact .null

/-- Every text the printer makes of a legible tree denotes the tree that is read back. -/
theorem readsAs (doubles : library.ReadsDoubles) {item : Item} (legible : Legible item) :
    ReadsAs library format item := by
  induction legible with
  | @mk fields child headPrev raw integer double below each =>
      intro depth limit name text rendered balance
      unfold rendering at rendered
      unfold reread
      cases base : fields.type_.base with
      | null =>
          simp only [base] at rendered ⊢
          cases rendered
          exact .null
      | false =>
          simp only [base] at rendered ⊢
          cases rendered
          exact .false
      | true =>
          simp only [base] at rendered ⊢
          cases rendered
          exact .true
      | number =>
          simp only [base] at rendered ⊢
          cases found : numberBuffer library fields with
          | none =>
              rw [found] at rendered
              cases rendered
          | some printed =>
              rw [found] at rendered
              dsimp only at rendered
              split at rendered
              · cases rendered
              · cases rendered
                exact readsAs_number doubles (integer base) (double base) found
      | string =>
          simp only [base] at rendered ⊢
          cases rendered
          exact .string (stringToken_stringText_getD fields.valuestring)
      | array =>
          simp only [base] at rendered ⊢
          by_cases deep : nestingLimit ≤ depth
          · rw [if_pos deep] at rendered
            cases rendered
          rw [if_neg deep] at rendered
          rcases Option.map_eq_some_iff.mp rendered with ⟨inner, innerFound, rfl⟩
          rcases limit with _ | limit
          · omega
          cases child with
          | nil =>
              cases innerFound
              exact .empty .array blank_nil
          | cons item rest =>
              exact .filled .array blank_nil (readsAs_elements each (List.cons_ne_nil _ _) innerFound
                (show depth + 1 + limit = nestingLimit by omega))
      | object =>
          simp only [base] at rendered ⊢
          by_cases deep : nestingLimit ≤ depth
          · rw [if_pos deep] at rendered
            cases rendered
          rw [if_neg deep] at rendered
          rcases Option.map_eq_some_iff.mp rendered with ⟨inner, innerFound, rfl⟩
          rcases limit with _ | limit
          · omega
          rw [objectOpening_eq, objectClosing_eq]
          cases child with
          | nil =>
              cases innerFound
              have empty := @Derives.empty library name limit .object _
                ((blank_newline format).append (blank_indentation format depth))
              rw [rereadMembers]
              simpa only [List.cons_append, List.nil_append, List.append_assoc, Container.opening,
                Container.closing, Container.base] using empty
          | cons item rest =>
              rcases readsAs_members each (List.cons_ne_nil _ _) innerFound
                (show depth + 1 + limit = nestingLimit by omega) (blank_indentation format depth) with
                ⟨core, rfl, derives⟩
              have filled := @Derives.filled library name limit .object _ _ _
                ((blank_newline format).append (blank_indentation format (depth + 1))) derives
              simpa only [List.cons_append, List.append_assoc, Container.opening, Container.closing,
                Container.base] using filled
      | raw => exact absurd base raw
      | invalid =>
          simp only [base] at rendered
          cases rendered

theorem renders_of_elements {items : List Item} {depth : Nat} {text : Bytes}
    (rendered : renderElements library format depth items = some text) :
    ∀ item ∈ items, ∃ text, rendering library format depth item = some text := by
  induction items generalizing text with
  | nil => exact fun _ impossible => nomatch impossible
  | cons item rest hypothesis =>
      rw [renderElements] at rendered
      rcases Option.bind_eq_some_iff.mp rendered with ⟨front, frontFound, rendered⟩
      rcases Option.bind_eq_some_iff.mp rendered with ⟨back, backFound, _⟩
      exact List.forall_mem_cons.mpr ⟨⟨front, frontFound⟩, hypothesis backFound⟩

theorem renders_of_members {items : List Item} {depth : Nat} {text : Bytes}
    (rendered : renderMembers library format depth items = some text) :
    ∀ item ∈ items, ∃ text, rendering library format depth item = some text := by
  induction items generalizing text with
  | nil => exact fun _ impossible => nomatch impossible
  | cons item rest hypothesis =>
      rw [renderMembers] at rendered
      rcases Option.bind_eq_some_iff.mp rendered with ⟨front, frontFound, rendered⟩
      rcases Option.bind_eq_some_iff.mp rendered with ⟨back, backFound, _⟩
      exact List.forall_mem_cons.mpr ⟨⟨front, frontFound⟩, hypothesis backFound⟩

/-- The text of a container has the texts of its children in it, so each of them has
one. -/
theorem renders_of_child {item next : Item} {depth : Nat} {text : Bytes}
    (container : item.isArray = true ∨ item.isObject = true) (member : next ∈ item.child)
    (rendered : rendering library format depth item = some text) :
    ∃ text, rendering library format (depth + 1) next = some text := by
  cases item with
  | mk fields child headPrev =>
      rw [rendering] at rendered
      rcases container with array | object
      · have base : fields.type_.base = .array := beq_iff_eq.mp array
        simp only [base] at rendered
        split at rendered
        · cases rendered
        · rcases Option.map_eq_some_iff.mp rendered with ⟨inner, innerFound, _⟩
          exact renders_of_elements innerFound next member
      · have base : fields.type_.base = .object := beq_iff_eq.mp object
        simp only [base] at rendered
        split at rendered
        · cases rendered
        · rcases Option.map_eq_some_iff.mp rendered with ⟨inner, innerFound, _⟩
          exact renders_of_members innerFound next member

end Trees

/-! ## Comparing with what has been printed -/

section Comparing

variable {library : CLibrary} {format caseSensitive : Bool}

@[simp] theorem string_reread (name : Option Bytes) (item : Item) :
    (reread library name item).string = name := by
  cases item with
  | mk fields child headPrev =>
      rw [reread]
      cases fields.type_.base with
      | number =>
          dsimp only
          rw [rereadNumber]
          split
          · rfl
          · rfl
      | _ => rfl

theorem nameIn_reread (item : Item) :
    (reread library (some item.key) item).nameIn caseSensitive = item.nameIn caseSensitive := by
  rw [nameIn, nameIn, key, string_reread, Option.getD_some, key, text_text]

theorem child_reread_eq_nil {name : Option Bytes} {item : Item} (notArray : item.base ≠ .array)
    (notObject : item.base ≠ .object) : (reread library name item).child = [] ∧
      (reread library name item).base ≠ .object := by
  cases item with
  | mk fields child headPrev =>
      rw [base_mk] at notArray notObject
      rw [reread]
      cases base : fields.type_.base with
      | number =>
          dsimp only
          rw [rereadNumber]
          split
          · exact ⟨rfl, fun impossible => nomatch impossible⟩
          · exact ⟨rfl, fun impossible => nomatch impossible⟩
      | array => exact absurd base notArray
      | object => exact absurd base notObject
      | _ => exact ⟨rfl, fun impossible => nomatch impossible⟩

theorem map_nameIn_rereadMembers (items : List Item) :
    (rereadMembers library items).map (nameIn caseSensitive) = items.map (nameIn caseSensitive) := by
  rw [rereadMembers_eq_map, List.map_map]
  exact List.map_congr_left fun item _ => nameIn_reread item

theorem distinctKeysIn_reread {item : Item} (distinct : item.DistinctKeysIn caseSensitive) (name : Option Bytes) :
    (reread library name item).DistinctKeysIn caseSensitive := by
  induction distinct generalizing name with
  | @mk fields child headPrev here below each =>
      by_cases array : fields.type_.base = .array
      · rw [reread, array]
        refine .mk (fun impossible => nomatch impossible) ?_
        intro item inside
        rw [rereadElements_eq_map] at inside
        rcases List.mem_map.mp inside with ⟨source, member, rfl⟩
        exact each source member none
      by_cases object : fields.type_.base = .object
      · rw [reread, object]
        refine .mk (fun _ => ⟨?_, ?_⟩) ?_
        · intro item inside
          rw [rereadMembers_eq_map] at inside
          rcases List.mem_map.mp inside with ⟨source, _, rfl⟩
          rw [string_reread]
          rfl
        · rw [map_nameIn_rereadMembers]
          exact (here object).2
        · intro item inside
          rw [rereadMembers_eq_map] at inside
          rcases List.mem_map.mp inside with ⟨source, member, rfl⟩
          exact each source member (some source.key)
      · rcases @child_reread_eq_nil library name (.mk fields child headPrev) array object with ⟨empty, notObject⟩
        rw [← Item.eta (reread library name (.mk fields child headPrev)), empty]
        exact .mk (fun isObject => absurd isObject notObject) (fun _ impossible => nomatch impossible)

/-- The number that is read back is as close to the printed one as `cJSON_Compare`
asks; an integer comes back as it was. -/
theorem PrintsAs.close {fields : Fields} {value : ℚ} {printed : Bytes} (doubles : library.ReadsDoubles)
    (finite : fields.valuedouble = .finite value) (prints : PrintsAs library fields value printed)
    (integer : FitsInt32 fields.valueint) (representable : Binary64.Representable value) :
    compareDouble (library.strtod printed).1 fields.valuedouble = true := by
  cases prints with
  | integer same =>
      rw [doubles.strtod_eq _ integer, ← same]
      exact (compareDouble_self_iff _).mpr ⟨value, finite⟩
  | short close _ =>
      rw [recovers, Bool.and_eq_true] at close
      rw [finite]
      exact close.2
  | long _ _ =>
      rw [doubles.exact value representable, finite]
      exact (compareDouble_self_iff _).mpr ⟨value, rfl⟩

theorem like_reread (doubles : library.ReadsDoubles) {item : Item} (legible : Legible item)
    (definite : item.Definite) (distinct : item.DistinctKeysIn caseSensitive) {depth : Nat} {text : Bytes}
    (rendered : rendering library format depth item = some text) (name : Option Bytes) :
    Json.Like Scalar.Close ((reread library name item).json caseSensitive) (item.json caseSensitive) := by
  induction legible generalizing depth text name with
  | @mk fields child headPrev raw integer double below each =>
      have inner := fun container next member =>
        @renders_of_child library format (.mk fields child headPrev) next depth text container member rendered
      rw [Definite] at definite
      cases base : fields.type_.base with
      | null =>
          rw [reread, json, base]
          exact .null
      | false =>
          rw [reread, json, base]
          exact .scalar trivial
      | true =>
          rw [reread, json, base]
          exact .scalar trivial
      | number =>
          rw [base] at definite
          rcases definite with ⟨value, finite⟩
          rw [rendering, base] at rendered
          dsimp only at rendered
          cases found : numberBuffer library fields with
          | none =>
              rw [found] at rendered
              cases rendered
          | some printed =>
              have prints := printsAs_of_numberBuffer finite found
              rw [reread, json, base]
              dsimp only
              rw [rereadNumber, finite, found, Option.getD_some]
              refine .scalar ?_
              rw [← finite]
              exact prints.close doubles finite (integer base) (double base value finite)
      | string =>
          rw [base] at definite
          rcases Option.isSome_iff_exists.mp definite with ⟨block, stored⟩
          rw [reread, json, base, stored]
          refine .scalar ?_
          exact text_text block
      | array =>
          have array : (Item.mk fields child headPrev).isArray = true := beq_iff_eq.mpr base
          rw [base, allDefinite_iff] at definite
          rw [reread, json_array array, base]
          dsimp only
          rw [json_array rfl, Json.like_array_iff, List.forall₂_map_left_iff, List.forall₂_map_right_iff]
          show List.Forall₂ _ (rereadElements library child) child
          rw [rereadElements_eq_map, List.forall₂_map_left_iff, List.forall₂_same]
          intro next member
          rcases inner (Or.inl array) next member with ⟨_, nextRendered⟩
          exact each next member (definite next member) (distinct.child member) nextRendered none
      | object =>
          have object : (Item.mk fields child headPrev).isObject = true := beq_iff_eq.mpr base
          have names := distinct.names object
          rw [base, allDefinite_iff] at definite
          rw [reread, json_object object, base]
          dsimp only
          rw [json_object rfl]
          show Json.Like _ (.object (jsonMembers _ (rereadMembers library child))) _
          refine (like_members_iff (by rw [map_nameIn_rereadMembers]; exact names.2) names.2).mpr ⟨?_, ?_⟩
          · intro read inside
            rw [rereadMembers_eq_map] at inside
            rcases List.mem_map.mp inside with ⟨next, member, rfl⟩
            rcases inner (Or.inr object) next member with ⟨_, nextRendered⟩
            exact ⟨next, member, (nameIn_reread next).symm,
              each next member (definite next member) (distinct.child member) nextRendered _⟩
          · intro next member
            rw [rereadMembers_eq_map]
            exact ⟨_, List.mem_map_of_mem member, nameIn_reread next⟩
      | raw => exact absurd base raw
      | invalid =>
          rw [base] at definite
          exact definite.elim

end Comparing

/-- What is parsed of a printed text. -/
theorem parse_rendering {library : CLibrary} {format : Bool} (doubles : library.ReadsDoubles) {item : Item}
    (legible : Legible item) {block : Block} {r : Bytes} (rendered : rendering library format 0 item = some r)
    (nulFree : (0 : UInt8) ∉ r) (holds : block.bytes = r ++ [0]) {hooks : Hooks} (succeeds : hooks.AlwaysSucceed) :
    cjsonParseWithOpts library hooks block.bytes true =
      .ok { item := some (reread library none item), parseEnd := (text block.bytes).length,
            errorPosition := none } := by
  apply cjsonParseWithOpts_complete succeeds
  have derives := readsAs doubles legible 0 nestingLimit none r rendered (Nat.zero_add _)
  rw [holds, text_append_zero nulFree]
  refine ⟨[], [], r, [], ?_, Or.inl rfl, blank_nil, blank_nil, derives⟩
  simp

/-- `cJSON_Compare` takes the tree that is parsed from a printed text for equal to the one that
was printed, in either mode in which its names are different, whatever its finite numbers are. -/
theorem print_parse_compares (library : CLibrary) (doubles : library.ReadsDoubles) (item : Item)
    (format caseSensitive : Bool) (legible : Legible item) (definite : item.Definite)
    (distinct : item.DistinctKeysIn caseSensitive) {allocator after : Allocator} {block : Block}
    (printed : (if format then cjsonPrint library item allocator
      else cjsonPrintUnformatted library item allocator) = .ok (some block, after))
    (hooks : Hooks) (succeeds : hooks.AlwaysSucceed) :
    ∃ parsed, cjsonParseWithOpts library hooks block.bytes true =
        .ok { item := some parsed, parseEnd := (text block.bytes).length, errorPosition := none } ∧
      cjsonCompare parsed item caseSensitive = true ∧ cjsonCompare item parsed caseSensitive = true := by
  have impl : printImpl library item format allocator = .ok (some block, after) := by
    cases format
    · exact printed
    · exact printed
  obtain ⟨r, rendered, nulFree, holds⟩ := ((printImpl_returns library item format allocator).elim impl).1 block rfl
  have equal : cjsonCompare (reread library none item) item caseSensitive = true :=
    (cjsonCompare_iff_like (distinctKeysIn_reread distinct none) distinct).mpr
      (like_reread doubles legible definite distinct rendered none)
  exact ⟨_, parse_rendering doubles legible rendered nulFree holds succeeds, equal,
    (cjsonCompare_comm _ _ _).trans equal⟩

/-! ## A library for fractions -/

/-- The text of an integer, or numerator and denominator around an `e`. -/
def fractionText (value : ℚ) : Bytes :=
  decimalText value.num ++ (if value.den = 1 then [] else 0x65 :: decimalDigits value.den)

/-- A `strtod` that reads such texts. -/
def fractionStrtod (run : Bytes) : Binary64 × Nat :=
  match decimalStrtod run with
  | (.finite value, count) =>
      match run.drop count with
      | 0x65 :: rest =>
          (.finite (value / digitsValue (leadingDigits rest)), count + ((leadingDigits rest).length + 1))
      | _ => (.finite value, count)
  | other => other

/-- A C library that keeps every number, and writes integers as the real one does. -/
def fractionLibrary : CLibrary where
  decimalPoint := 0x2E
  strtod := fractionStrtod
  formatG _ number :=
    match number with
    | .finite value => fractionText value
    | _ => [0x30]
  formatG_nulFree _ number := by
    cases number with
    | finite value =>
        intro inside
        rcases List.mem_append.mp inside with inside | inside
        · exact zero_not_mem_decimalText _ inside
        · split at inside
          · cases inside
          · rcases List.mem_cons.mp inside with same | inside
            · exact absurd same (by decide)
            · exact absurd (isDigit_of_mem_decimalDigits inside) (by decide)
    | nan => decide
    | infinite negative => cases negative <;> decide

theorem mem_fractionText {value : ℚ} {byte : UInt8} (inside : byte ∈ fractionText value) :
    byte = 0x2D ∨ byte = 0x65 ∨ isDigit byte = true := by
  rcases List.mem_append.mp inside with inside | inside
  · exact (mem_decimalText inside).imp_right Or.inr
  · split at inside
    · cases inside
    · rcases List.mem_cons.mp inside with same | inside
      · exact Or.inr (Or.inl same)
      · exact Or.inr (Or.inr (isDigit_of_mem_decimalDigits inside))

theorem leadingDigits_decimalDigits (value : Nat) {rest : Bytes}
    (ends : ∀ byte, rest.head? = some byte -> isDigit byte = false) :
    leadingDigits (decimalDigits value ++ rest) = decimalDigits value :=
  leadingDigits_append (fun _ inside => isDigit_of_mem_decimalDigits inside) ends

theorem decimalStrtod_decimalText (value : Int) {rest : Bytes}
    (ends : ∀ byte, rest.head? = some byte -> isDigit byte = false) :
    decimalStrtod (decimalText value ++ rest) = (.ofInt value, (decimalText value).length) := by
  have digits := decimalDigits_ne_nil value.natAbs
  have leading := leadingDigits_decimalDigits value.natAbs ends
  unfold decimalStrtod decimalText
  by_cases negative : value < 0
  · rw [if_pos negative, List.cons_append, List.tail_cons, leading, if_pos ⟨rfl, digits⟩,
      digitsValue_decimalDigits, List.length_cons]
    congr 2
    omega
  · rw [if_neg negative, if_neg, leading, digitsValue_decimalDigits]
    · congr 2
      omega
    · rintro ⟨sign, _⟩
      rw [List.head?_append_of_ne_nil _ digits] at sign
      exact absurd (isDigit_of_mem_decimalDigits (List.mem_of_mem_head? sign)) (by decide)

theorem fractionStrtod_fractionText (value : ℚ) :
    fractionStrtod (fractionText value) = (.finite value, (fractionText value).length) := by
  have reads : decimalStrtod (fractionText value) = (.ofInt value.num, (decimalText value.num).length) := by
    apply decimalStrtod_decimalText
    intro byte head
    split at head
    · cases head
    · cases head
      rfl
  rw [fractionStrtod, reads, Binary64.ofInt]
  dsimp only
  rw [fractionText, List.drop_left]
  by_cases whole : value.den = 1
  · have integral : (value.num : ℚ) = value := (Rat.den_eq_one_iff value).mp whole
    rw [if_pos whole, List.append_nil]
    dsimp only
    rw [integral]
  · have leading := @leadingDigits_decimalDigits value.den [] (fun _ impossible => by cases impossible)
    rw [List.append_nil] at leading
    rw [if_neg whole]
    show ((.finite (value.num / digitsValue (leadingDigits (decimalDigits value.den))), _) : Binary64 × Nat) = _
    rw [leading, digitsValue_decimalDigits, Rat.num_div_den, List.length_append, List.length_cons]

theorem fractionLibrary_readsDoubles : fractionLibrary.ReadsDoubles where
  strtod_eq value _ := by
    have text : decimalText value = fractionText value := by
      rw [fractionText, Rat.den_intCast, Rat.num_intCast, if_pos rfl, List.append_nil]
    show fractionStrtod (decimalText value) = _
    rw [text, fractionStrtod_fractionText]
    rfl
  point_not_digit := rfl
  point_not_sign := by decide
  characters _ value _ byte inside := by
    left
    rcases mem_fractionText inside with rfl | rfl | digit
    · decide
    · decide
    · refine ⟨?_, ?_⟩
      · unfold isDigit at digit
        rw [isNumberByte, digit]
        rfl
      · rintro rfl
        exact absurd digit (by decide)
  starts _ value _ := by
    rcases decimalText_cons value.num with ⟨first, rest, split, start⟩
    refine ⟨first, rest ++ (if value.den = 1 then [] else 0x65 :: decimalDigits value.den), ?_, start⟩
    show fractionText value = _
    rw [fractionText, split]
    rfl
  whole _ value _ := congrArg Prod.snd (fractionStrtod_fractionText value)
  exact value _ := congrArg Prod.fst (fractionStrtod_fractionText value)
  point_not_letter := by
    have point : fractionLibrary.decimalPoint = 0x2E := rfl
    simp [point]

/-- The tree of `{"a": 4294967296}`, whose number is no `int`. -/
def largeTree : Item :=
  .mk { type_ := { base := .object } }
    [.mk { type_ := { base := .number }, valueint := 2 ^ 31 - 1, valuedouble := .ofInt (2 ^ 32),
           string := some [0x61, 0] } [] .null] (.at 0)

theorem largeTree_legible : Legible largeTree := by
  refine .mk (by decide) (fun impossible => nomatch impossible) (fun impossible => nomatch impossible) ?_
  intro item inside
  rw [List.mem_singleton.mp inside]
  refine .mk (by decide) (fun _ => by decide) ?_ (fun _ impossible => nomatch impossible)
  intro _ value same
  cases same
  exact Binary64.round_intCast (by decide)

theorem largeTree_distinct (caseSensitive : Bool) : largeTree.DistinctKeysIn caseSensitive := by
  refine .mk (fun _ => ⟨fun item inside => ?_, List.nodup_singleton _⟩) (fun item inside => ?_)
  · rw [List.mem_singleton.mp inside]
    rfl
  · rw [List.mem_singleton.mp inside]
    exact .mk (fun impossible => nomatch impossible) (fun _ impossible => nomatch impossible)

theorem largeTree_prints : ∃ block after,
    cjsonPrintUnformatted fractionLibrary largeTree ⟨grantAll, fun _ _ => 0, []⟩ = .ok (some block, after) := by
  have rendered : rendering fractionLibrary false 0 largeTree = some [0x7B, 0x22, 0x61, 0x22, 0x3A,
      0x34, 0x32, 0x39, 0x34, 0x39, 0x36, 0x37, 0x32, 0x39, 0x36, 0x7D] := by
    decide +kernel
  obtain ⟨⟨block, after⟩, ran, _, granted⟩ :=
    printImpl_returns fractionLibrary largeTree false ⟨grantAll, fun _ _ => 0, []⟩
  obtain ⟨printed, rfl⟩ := Option.isSome_iff_exists.mp
    (granted grantAll_alwaysSucceed _ rendered (by unfold FitsIntMax; decide))
  exact ⟨printed, after, ran⟩

theorem print_parse_compares_largeTree : ∃ block after,
    cjsonPrintUnformatted fractionLibrary largeTree ⟨grantAll, fun _ _ => 0, []⟩ = .ok (some block, after) ∧
      ∃ parsed, cjsonParseWithOpts fractionLibrary grantAll block.bytes true =
          .ok { item := some parsed, parseEnd := (text block.bytes).length, errorPosition := none } ∧
        cjsonCompare parsed largeTree true = true ∧ cjsonCompare largeTree parsed true = true := by
  obtain ⟨block, after, printed⟩ := largeTree_prints
  exact ⟨block, after, printed, print_parse_compares fractionLibrary fractionLibrary_readsDoubles largeTree
    false true largeTree_legible ⟨⟨_, rfl⟩, trivial⟩ (largeTree_distinct true) printed grantAll
    grantAll_alwaysSucceed⟩

end CJson
