import CJson.Document
import CJson.Rendering
import CJson.Value

/-!
# Printing and parsing back

The rendering of a well-formed tree is a document of the parser's grammar, and
the tree that it denotes has the value of the one that was printed.  Escapes are
read back byte by byte, a decimal number is one token, and the indentation of a
formatted text is the whitespace that the grammar allows between tokens.
-/

namespace CJson

open CString ParseBuffer

/-! ## Strings -/

/-- The three ways of writing a byte: as it is, by a letter behind a backslash, or by
its code. -/
theorem escapeByte_cases (byte : UInt8) :
    (byte ≠ 0x22 ∧ byte ≠ 0x5C ∧ escapeByte byte = [byte]) ∨
    (∃ code ∈ [0x22, 0x5C, 0x62, 0x66, 0x6E, 0x72, 0x74],
      escapeByte byte = [0x5C, code] ∧ simpleEscape code = some byte) ∨
    (byte < 32 ∧ escapeByte byte = 0x5C :: unicodeEscape byte) := by
  induction byte using byte_induction with
  | all value =>
      revert value
      decide +kernel

/-- The digits of a control character's escape, and what it decodes to.  The two
digits are neither a quote nor a backslash, so the literal does not end there. -/
theorem unicodeEscape_digits (byte : UInt8) : byte < 32 ->
    hexDigit (hexByte (byte.toNat / 16)) = some (byte.toNat / 16) ∧
    hexDigit (hexByte (byte.toNat % 16)) = some (byte.toNat % 16) ∧
    ((byte.toNat / 16) <<< 4) + byte.toNat % 16 = byte.toNat ∧
    hexByte (byte.toNat / 16) ≠ 0x22 ∧ hexByte (byte.toNat / 16) ≠ 0x5C ∧
    hexByte (byte.toNat % 16) ≠ 0x22 ∧ hexByte (byte.toNat % 16) ≠ 0x5C ∧
    encodeCodepoint byte.toNat = some [byte] := by
  induction byte using byte_induction with
  | all value =>
      revert value
      decide +kernel

theorem QuotedBody.append {first second : Bytes} (left : QuotedBody first)
    (right : QuotedBody second) : QuotedBody (first ++ second) := by
  induction left with
  | done => exact right
  | plain notQuote notBackslash _ hypothesis => exact .plain notQuote notBackslash hypothesis
  | escape _ hypothesis => exact .escape hypothesis

theorem quotedBody_escapeByte (byte : UInt8) : QuotedBody (escapeByte byte) := by
  rcases escapeByte_cases byte with ⟨notQuote, notBackslash, same⟩ | ⟨code, _, same, _⟩ | ⟨control, same⟩
  · rw [same]
    exact .plain notQuote notBackslash .done
  · rw [same]
    exact .escape .done
  · rw [same]
    rcases unicodeEscape_digits byte control with ⟨_, _, _, highQuote, highBackslash, lowQuote, lowBackslash, _⟩
    exact .escape (.plain (by decide) (by decide) (.plain (by decide) (by decide)
      (.plain highQuote highBackslash (.plain lowQuote lowBackslash .done))))

theorem quotedBody_flatMap (input : Bytes) : QuotedBody (input.flatMap escapeByte) := by
  induction input with
  | nil => exact .done
  | cons byte input hypothesis =>
      rw [List.flatMap_cons]
      exact (quotedBody_escapeByte byte).append hypothesis

/-- Four digits in the buffer, read from the first to the last; the sum is shifted in
front of each digit but the first. -/
theorem parseHex4_eq {buffer : ParseBuffer} {input first second third fourth : Nat}
    {a b c d : UInt8} {rest : Bytes} (bytes : buffer.content.drop input = a :: b :: c :: d :: rest)
    (firstDigit : hexDigit a = some first) (secondDigit : hexDigit b = some second)
    (thirdDigit : hexDigit c = some third) (fourthDigit : hexDigit d = some fourth) :
    parseHex4 buffer input =
      .ok (((((0 + first) <<< 4 + second) <<< 4) + third) <<< 4 + fourth) := by
  have readA := getElem?_of_drop bytes
  have readB := getElem?_of_drop readA.2
  have readC := getElem?_of_drop readB.2
  have readD := getElem?_of_drop readC.2
  simp only [parseHex4, parseHexLoop, read_eq_ok.mpr readA.1, read_eq_ok.mpr readB.1,
    read_eq_ok.mpr readC.1, read_eq_ok.mpr readD.1, Except.ok_bind, firstDigit, secondDigit,
    thirdDigit, fourthDigit]
  rfl

/-- The escape of a control character is read back. -/
theorem utf16LiteralToUtf8_control {buffer : ParseBuffer} {pointer inputEnd : Nat} {byte : UInt8}
    {rest : Bytes} (control : byte < 32)
    (bytes : buffer.content.drop pointer = 0x5C :: (unicodeEscape byte ++ rest))
    (inside : pointer + 6 ≤ inputEnd) :
    utf16LiteralToUtf8 buffer pointer inputEnd = .ok (6, [byte]) := by
  rcases unicodeEscape_digits byte control with ⟨high, low, sum, _, _, _, _, encoded⟩
  have digits : buffer.content.drop (pointer + 2) =
      48 :: 48 :: hexByte (byte.toNat / 16) :: hexByte (byte.toNat % 16) :: rest :=
    (getElem?_of_drop (getElem?_of_drop bytes).2).2
  have zero : hexDigit 48 = some 0 := rfl
  have code := parseHex4_eq digits zero zero high low
  rw [Nat.zero_add, Nat.zero_shiftLeft, Nat.zero_add, Nat.zero_shiftLeft, Nat.zero_add, sum] at code
  have small : byte.toNat < 32 := UInt8.lt_iff_toNat_lt.mp control
  rw [utf16LiteralToUtf8, utf16Codepoint, if_neg (by omega), code, Except.ok_bind, if_neg (by omega),
    if_neg (by omega), Except.ok_bind]
  dsimp only
  rw [encoded]

/-- The second pass over an escaped string gives back the string, by induction along
it. -/
theorem decodeString_escaped {buffer : ParseBuffer} {input : Bytes} {fuel pointer inputEnd : Nat}
    {output rest : Bytes} (enough : input.length < fuel)
    (bytes : buffer.content.drop pointer = input.flatMap escapeByte ++ rest)
    (ends : inputEnd = pointer + (input.flatMap escapeByte).length) :
    decodeString buffer inputEnd fuel pointer output = .ok (inputEnd, output ++ input) := by
  induction input generalizing fuel pointer output with
  | nil =>
      cases fuel with
      | zero => exact absurd enough (Nat.not_lt_zero _)
      | succ fuel =>
          have same : inputEnd = pointer := ends
          rw [decodeString, if_pos (by omega), List.append_nil, same]
  | cons byte input hypothesis =>
      cases fuel with
      | zero => exact absurd enough (Nat.not_lt_zero _)
      | succ fuel =>
          rw [List.flatMap_cons, List.append_assoc] at bytes
          rw [List.flatMap_cons, List.length_append] at ends
          rw [List.length_cons] at enough
          have next : ∀ {count : Nat}, (escapeByte byte).length = count ->
              decodeString buffer inputEnd fuel (pointer + count) (output ++ [byte]) =
                .ok (inputEnd, output ++ byte :: input) := by
            intro count length
            have behind : buffer.content.drop (pointer + count) = input.flatMap escapeByte ++ rest := by
              rw [← List.drop_drop, bytes, ← length, List.drop_left]
            rw [hypothesis (by omega) behind (by omega), List.append_assoc]
            rfl
          rcases escapeByte_cases byte with ⟨_, notBackslash, same⟩ | ⟨code, _, same, decoded⟩ |
            ⟨control, same⟩
          · rw [same] at bytes ends
            have read := getElem?_of_drop bytes
            rw [decodeString, if_neg (by simp only [List.length_singleton] at ends; omega),
              read_eq_ok.mpr read.1, Except.ok_bind, if_pos notBackslash]
            exact next (by rw [same]; rfl)
          · rw [same] at bytes ends
            have read := getElem?_of_drop bytes
            have readCode := getElem?_of_drop read.2
            rw [decodeString, if_neg (by simp only [List.length_cons] at ends; omega),
              read_eq_ok.mpr read.1, Except.ok_bind, if_neg (by decide), read_eq_ok.mpr readCode.1,
              Except.ok_bind, decoded]
            exact next (by rw [same]; rfl)
          · rw [same] at bytes ends
            have length : (0x5C :: unicodeEscape byte).length = 6 := rfl
            have read := getElem?_of_drop bytes
            have readCode := getElem?_of_drop read.2
            have literal := @utf16LiteralToUtf8_control buffer pointer inputEnd byte
              (input.flatMap escapeByte ++ rest) control bytes (by omega)
            rw [decodeString, if_neg (by omega), read_eq_ok.mpr read.1, Except.ok_bind,
              if_neg (by decide), read_eq_ok.mpr readCode.1, Except.ok_bind]
            have notSimple : simpleEscape 0x75 = none := rfl
            rw [notSimple]
            dsimp only
            rw [if_pos rfl, literal, Except.ok_bind]
            exact next (by rw [same]; rfl)

/-- A printed string is a token for the same string. -/
theorem stringToken_stringText (block : Bytes) :
    StringToken (stringText (some block)) (text block) := by
  refine ⟨(text block).flatMap escapeByte, _, rfl, quotedBody_flatMap _, ?_, Nat.le_refl _⟩
  have length := flatMap_escapeByte_length (text block)
  exact @decodeString_escaped (bufferOf (quoted ((text block).flatMap escapeByte))) (text block)
    (((text block).flatMap escapeByte).length + 1) 1 _ [] [0x22] (by omega) rfl (Nat.add_comm _ _)

/-! ## Numbers -/

/-- What the C library does with decimal integers: `strtod` reads the text of an `i32`
exactly, and the decimal point is neither a digit nor a sign. -/
structure CLibrary.ReadsIntegers (library : CLibrary) : Prop where
  strtod_eq : ∀ value, FitsInt32 value ->
    library.strtod (decimalText value) = (.ofInt value, (decimalText value).length)
  point_not_digit : isDigit library.decimalPoint = false
  point_not_sign : library.decimalPoint ≠ 0x2D

/-- The bytes of an integer's text. -/
theorem mem_decimalText {value : Int} {byte : UInt8} (inside : byte ∈ decimalText value) :
    byte = 0x2D ∨ isDigit byte = true := by
  unfold decimalText at inside
  split at inside
  · rcases List.mem_cons.mp inside with same | inside
    · exact Or.inl same
    · exact Or.inr (isDigit_of_mem_decimalDigits inside)
  · exact Or.inr (isDigit_of_mem_decimalDigits inside)

theorem decimalText_cons (value : Int) : ∃ first rest, decimalText value = first :: rest ∧
    (first = 0x2D ∨ (48 ≤ first ∧ first ≤ 57)) := by
  cases split : decimalText value with
  | nil =>
      unfold decimalText at split
      split at split
      · cases split
      · exact absurd split (decimalDigits_ne_nil _)
  | cons first rest =>
      refine ⟨first, rest, rfl, ?_⟩
      rcases mem_decimalText (show first ∈ decimalText value by rw [split]; exact List.mem_cons_self) with
        sign | digit
      · exact Or.inl sign
      · exact Or.inr (by simpa [isDigit] using digit)

/-- The printer finds no decimal point in an integer. -/
theorem numberText_decimalText {library : CLibrary} (integers : library.ReadsIntegers) (value : Int) :
    numberText library (decimalText value) = decimalText value := by
  unfold numberText
  conv_rhs => rw [← List.map_id (decimalText value)]
  apply List.map_congr_left
  intro byte inside
  rw [if_neg]
  · rfl
  · rintro rfl
    rcases mem_decimalText inside with sign | digit
    · exact integers.point_not_sign sign
    · rw [integers.point_not_digit] at digit
      cases digit

/-- And the parser finds none either. -/
theorem numberCString_decimalText (library : CLibrary) (value : Int) :
    numberCString library (decimalText value) = decimalText value := by
  unfold numberCString
  conv_rhs => rw [← List.map_id (decimalText value)]
  apply List.map_congr_left
  intro byte inside
  rw [if_neg]
  · rfl
  · rintro rfl
    rcases mem_decimalText inside with sign | digit
    · exact absurd sign (by decide)
    · exact absurd digit (by decide)

theorem numberToken_decimalText {library : CLibrary} (integers : library.ReadsIntegers) {value : Int}
    (fits : FitsInt32 value) : NumberToken library (decimalText value) (.ofInt value) where
  bytes byte inside := by
    rcases mem_decimalText inside with rfl | digit
    · decide
    · unfold isDigit at digit
      rw [isNumberByte, digit]
      rfl
  some empty := by
    unfold decimalText at empty
    split at empty
    · cases empty
    · exact decimalDigits_ne_nil _ empty
  value := by
    rw [numberCString_decimalText]
    exact integers.strtod_eq value fits

/-- An integer is printed as its decimal text. -/
theorem numberBuffer_ofInt {library : CLibrary} {fields : Fields}
    (integral : fields.valuedouble = .ofInt fields.valueint) :
    numberBuffer library fields = some (decimalText fields.valueint) := by
  unfold numberBuffer
  rw [integral]
  exact if_pos rfl

/-- The text of an integer is short enough for the number buffer. -/
theorem decimalText_fits {value : Int} (fits : FitsInt32 value) : ¬ 25 < (decimalText value).length := by
  have length := @decimalText_length_le value 10 (by decide) (by have := fits.1; have := fits.2; omega)
  omega

/-! ## Numbers of any kind -/

section Numbers

variable {library : CLibrary} {fields : Fields} {value : ℚ}

theorem formatNumberG_eq_some {d : Binary64} {precision : Nat} {printed : Bytes}
    (found : formatNumberG library d precision = some printed) :
    printed = library.formatG precision d ∧ ¬ 26 ≤ printed.length := by
  unfold formatNumberG at found
  dsimp only at found
  split at found
  · cases found
  · rename_i fits
    cases found
    exact ⟨rfl, fits⟩

/-- How a finite number is printed: as an integer, with fifteen digits that are close
enough, or with seventeen digits.  Each has to fit into the number buffer. -/
inductive PrintsAs (library : CLibrary) (fields : Fields) (value : ℚ) : Bytes -> Prop where
  | integer (same : fields.valuedouble = .ofInt fields.valueint) :
      PrintsAs library fields value (decimalText fields.valueint)
  | short (close : recovers library (.finite value) (library.formatG 15 (.finite value)) = true)
      (fits : ¬ 26 ≤ (library.formatG 15 (.finite value)).length) :
      PrintsAs library fields value (library.formatG 15 (.finite value))
  | long (far : ¬ 26 ≤ (library.formatG 15 (.finite value)).length ->
        recovers library (.finite value) (library.formatG 15 (.finite value)) = false)
      (fits : ¬ 26 ≤ (library.formatG 17 (.finite value)).length) :
      PrintsAs library fields value (library.formatG 17 (.finite value))

theorem printsAs_of_numberBuffer {printed : Bytes} (finite : fields.valuedouble = .finite value)
    (found : numberBuffer library fields = some printed) : PrintsAs library fields value printed := by
  unfold numberBuffer at found
  rw [finite] at found
  dsimp only at found
  split at found
  · rename_i same
    cases found
    exact .integer (finite.trans same)
  · cases shortFound : formatNumberG library (.finite value) 15 with
    | none =>
        rw [shortFound] at found
        obtain ⟨rfl, fits⟩ := formatNumberG_eq_some found
        refine .long (fun small => ?_) fits
        rw [formatNumberG, if_neg small] at shortFound
        cases shortFound
    | some short =>
        rw [shortFound] at found
        obtain ⟨rfl, shortFits⟩ := formatNumberG_eq_some shortFound
        dsimp only at found
        split at found
        · rename_i close
          cases found
          exact .short close shortFits
        · rename_i far
          obtain ⟨rfl, fits⟩ := formatNumberG_eq_some found
          exact .long (fun _ => Bool.eq_false_iff.mpr far) fits

end Numbers

/-! ## Trees -/

/-- The rendering of a node has a derivation, under any name, and what it
denotes has the node's value. -/
def ReadsBack (library : CLibrary) (format : Bool) (item : Item) : Prop :=
  ∀ depth limit name value text, item.value? = some value ->
    rendering library format depth item = some text -> depth + limit = nestingLimit ->
    ∃ parsed, Derives library (.value name) limit text [parsed] ∧ parsed.value? = some value ∧
      parsed.string = name

theorem blank_replicate (count : Nat) : Blank (List.replicate count 0x09) := by
  intro byte inside
  rw [List.eq_of_mem_replicate inside]
  decide

theorem Blank.append {first second : Bytes} (left : Blank first) (right : Blank second) :
    Blank (first ++ second) := by
  intro byte inside
  rcases List.mem_append.mp inside with inside | inside
  · exact left byte inside
  · exact right byte inside

/-- A newline, in formatted text. -/
def newline (format : Bool) : Bytes := if format then [0x0A] else []

theorem blank_newline (format : Bool) : Blank (newline format) := by
  cases format with
  | false => exact blank_nil
  | true => exact Blank.append (blank_replicate 0) (fun byte inside => by
      rw [List.mem_singleton.mp inside]
      decide)

theorem blank_indentation (format : Bool) (depth : Nat) : Blank (indentation format depth) := by
  cases format with
  | false => exact blank_nil
  | true => exact blank_replicate depth

theorem objectOpening_eq (format : Bool) : objectOpening format = 0x7B :: newline format := by
  cases format <;> rfl

theorem objectClosing_eq (format : Bool) (depth : Nat) :
    objectClosing format (depth + 1) = indentation format depth ++ [0x7D] := rfl

theorem objectSeparator_eq (format isLast : Bool) :
    objectSeparator format isLast = (if isLast then [] else [0x2C]) ++ newline format := rfl

section Trees

variable {library : CLibrary} {format : Bool}

theorem readsBack_elements {items : List Item} (values : ∀ item ∈ items, ReadsBack library format item)
    {depth limit : Nat} {elements : List Value} {text : Bytes} (nonempty : items ≠ [])
    (denotes : Item.elements? items = some elements)
    (rendered : renderElements library format depth items = some text)
    (balance : depth + limit = nestingLimit) :
    ∃ parsed, Derives library (.entries .array) limit text parsed ∧
      Item.elements? parsed = some elements := by
  induction items generalizing elements text with
  | nil => exact absurd rfl nonempty
  | cons item rest hypothesis =>
      rcases Item.elements?_cons.mp denotes with ⟨value, others, valueFound, othersFound, rfl⟩
      rw [renderElements] at rendered
      rcases Option.bind_eq_some_iff.mp rendered with ⟨front, frontFound, rendered⟩
      rcases Option.bind_eq_some_iff.mp rendered with ⟨back, backFound, same⟩
      cases same
      rcases values item List.mem_cons_self depth limit none value front valueFound frontFound balance with
        ⟨parsed, derives, parsedValue, _⟩
      cases rest with
      | nil =>
          cases othersFound
          cases backFound
          refine ⟨[parsed], ?_, Item.elements?_cons.mpr ⟨value, [], parsedValue, rfl, rfl⟩⟩
          exact .last blank_nil (.element derives)
      | cons next rest =>
          rcases hypothesis (fun other inside => values other (List.mem_cons_of_mem _ inside))
            (List.cons_ne_nil _ _) othersFound backFound with ⟨following, derivesRest, restValues⟩
          refine ⟨parsed :: following, ?_,
            Item.elements?_cons.mpr ⟨value, others, parsedValue, restValues, rfl⟩⟩
          have space : arraySeparator format = 0x2C :: (if format then [0x20] else []) := by
            cases format <;> rfl
          have blank : Blank (if format then [0x20] else []) := by
            cases format with
            | false => exact blank_nil
            | true =>
                intro byte inside
                rw [List.mem_singleton.mp inside]
                decide
          rw [List.isEmpty_cons, if_neg Bool.false_ne_true, space]
          exact .more blank_nil blank (.element derives) derivesRest

/-- Behind the indentation of the first member, and with the indentation of the
closing brace behind the last one. -/
theorem readsBack_members {items : List Item} (values : ∀ item ∈ items, ReadsBack library format item)
    {depth limit : Nat} {members : List (Bytes × Value)} {text tail : Bytes} (nonempty : items ≠ [])
    (denotes : Item.members? items = some members)
    (rendered : renderMembers library format depth items = some text)
    (balance : depth + limit = nestingLimit) (blankTail : Blank tail) :
    ∃ core parsed, text = indentation format depth ++ core ∧
      Derives library (.entries .object) limit (core ++ tail) parsed ∧
      Item.members? parsed = some members := by
  induction items generalizing members text with
  | nil => exact absurd rfl nonempty
  | cons item rest hypothesis =>
      rcases Item.members?_cons.mp denotes with
        ⟨name, value, others, nameFound, valueFound, othersFound, rfl⟩
      rw [renderMembers] at rendered
      rcases Option.bind_eq_some_iff.mp rendered with ⟨front, frontFound, rendered⟩
      rcases Option.bind_eq_some_iff.mp rendered with ⟨back, backFound, same⟩
      cases same
      rcases values item List.mem_cons_self depth limit (some (CString.text name)) value front valueFound
        frontFound balance with ⟨parsed, derives, parsedValue, parsedName⟩
      have gap : colon format = 0x3A :: (if format then [0x09] else []) := by
        cases format <;> rfl
      have blank : Blank (if format then [0x09] else []) := by
        cases format with
        | false => exact blank_nil
        | true => exact blank_replicate 1
      have entry : Derives library (.entry .object) limit
          (stringText (some name) ++ (colon format ++ front)) [parsed] := by
        rw [gap]
        exact .member (stringToken_stringText name) blank_nil blank derives
      refine ⟨stringText (some name) ++ (colon format ++ (front ++
        (objectSeparator format rest.isEmpty ++ back))), ?_⟩
      cases rest with
      | nil =>
          cases othersFound
          cases backFound
          refine ⟨[parsed], by rw [nameFound], ?_, Item.members?_cons.mpr
            ⟨_, value, [], parsedName, parsedValue, rfl, by rw [text_text]⟩⟩
          have ended := Derives.last ((blank_newline format).append blankTail) entry
          simpa only [List.isEmpty_nil, objectSeparator_eq, if_pos, List.nil_append, List.append_nil,
            List.append_assoc] using ended
      | cons next rest =>
          rcases hypothesis (fun other inside => values other (List.mem_cons_of_mem _ inside))
            (List.cons_ne_nil _ _) othersFound backFound with
            ⟨core, following, rfl, derivesRest, restValues⟩
          refine ⟨parsed :: following, by rw [nameFound], ?_, Item.members?_cons.mpr
            ⟨_, value, others, parsedName, parsedValue, restValues, by rw [text_text]⟩⟩
          have more := Derives.more blank_nil ((blank_newline format).append (blank_indentation format depth))
            entry derivesRest
          simpa only [List.isEmpty_cons, objectSeparator_eq, if_neg Bool.false_ne_true, List.nil_append,
            List.cons_append, List.append_assoc] using more

/-- An array reads back when its elements do. -/
theorem readsBack_array {fields : Fields} {child : List Item} {headPrev : HeadPrev}
    (base : fields.type_.base = .array) (values : ∀ item ∈ child, ReadsBack library format item) :
    ReadsBack library format (.mk fields child headPrev) := by
  intro depth limit name value text denotes rendered balance
  unfold Item.value? at denotes
  unfold rendering at rendered
  simp only [base] at denotes rendered
  rcases Option.map_eq_some_iff.mp denotes with ⟨elements, elementsFound, rfl⟩
  by_cases deep : nestingLimit ≤ depth
  · rw [if_pos deep] at rendered
    cases rendered
  rw [if_neg deep] at rendered
  rcases Option.map_eq_some_iff.mp rendered with ⟨inner, innerFound, rfl⟩
  rcases limit with _ | limit
  · omega
  cases child with
  | nil =>
      cases elementsFound
      cases innerFound
      exact ⟨_, .empty .array blank_nil, rfl, rfl⟩
  | cons item rest =>
      rcases readsBack_elements values (List.cons_ne_nil _ _) elementsFound innerFound
        (show depth + 1 + limit = nestingLimit by omega) with ⟨parsed, derives, parsedValues⟩
      refine ⟨_, .filled .array blank_nil derives, ?_, rfl⟩
      show (Item.elements? parsed).map Value.array = _
      rw [parsedValues]
      rfl

/-- An object reads back when its members do, whatever newlines and tabs stand
between its braces. -/
theorem readsBack_object {fields : Fields} {child : List Item} {headPrev : HeadPrev}
    (base : fields.type_.base = .object) (values : ∀ item ∈ child, ReadsBack library format item) :
    ReadsBack library format (.mk fields child headPrev) := by
  intro depth limit name value text denotes rendered balance
  unfold Item.value? at denotes
  unfold rendering at rendered
  simp only [base] at denotes rendered
  rcases Option.map_eq_some_iff.mp denotes with ⟨members, membersFound, rfl⟩
  by_cases deep : nestingLimit ≤ depth
  · rw [if_pos deep] at rendered
    cases rendered
  rw [if_neg deep] at rendered
  rcases Option.map_eq_some_iff.mp rendered with ⟨inner, innerFound, rfl⟩
  rcases limit with _ | limit
  · omega
  rw [objectOpening_eq, objectClosing_eq]
  cases child with
  | nil =>
      cases membersFound
      cases innerFound
      have empty := @Derives.empty library name limit .object _
        ((blank_newline format).append (blank_indentation format depth))
      refine ⟨finishContainer (named name) .object [], ?_, rfl, rfl⟩
      simpa only [List.cons_append, List.nil_append, List.append_assoc, Container.opening,
        Container.closing, Container.base] using empty
  | cons item rest =>
      rcases readsBack_members values (List.cons_ne_nil _ _) membersFound innerFound
        (show depth + 1 + limit = nestingLimit by omega) (blank_indentation format depth) with
        ⟨core, parsed, rfl, derives, parsedMembers⟩
      have filled := @Derives.filled library name limit .object _ _ _
        ((blank_newline format).append (blank_indentation format (depth + 1))) derives
      refine ⟨finishContainer (named name) .object parsed, ?_, ?_, rfl⟩
      · simpa only [List.cons_append, List.append_assoc, Container.opening,
          Container.closing, Container.base] using filled
      · show (Item.members? parsed).map Value.object = _
        rw [parsedMembers]
        rfl

/-- A number with a value is an integer that fits an `int`: it is printed as its
digits, and the digits read back as the same integer. -/
theorem derives_number (integers : library.ReadsIntegers) {fields : Fields}
    (base : fields.type_.base = .number) {value : Value} (denotes : Item.leafValue? fields = some value)
    {depth limit : Nat} {name : Option Bytes} {text : Bytes} {headPrev : HeadPrev}
    (rendered : rendering library format depth (.mk fields [] headPrev) = some text) :
    ∃ parsed, Derives library (.value name) limit text [parsed] ∧ parsed.value? = some value ∧
      parsed.string = name := by
  unfold Item.leafValue? at denotes
  unfold rendering at rendered
  simp only [base] at denotes rendered
  split at denotes
  · rename_i integral
    rcases integral with ⟨integral, fits⟩
    cases denotes
    simp only [numberBuffer_ofInt integral, if_neg (decimalText_fits fits),
      numberText_decimalText integers] at rendered
    cases rendered
    have token := numberToken_decimalText integers fits
    rcases decimalText_cons fields.valueint with ⟨first, rest, split, start⟩
    rw [split] at token ⊢
    refine ⟨_, .number start token, ?_, rfl⟩
    show (if _ ∧ FitsInt32 (saturate (.ofInt fields.valueint)) then _ else none) = _
    rw [saturate_ofInt fits.1 fits.2]
    exact if_pos ⟨rfl, fits⟩
  · cases denotes

/-- A node without children reads back: literals by their names, numbers by
their digits, strings by their quoted text. A raw node has no value. -/
theorem readsBack_leaf (integers : library.ReadsIntegers) {fields : Fields} {child : List Item}
    {headPrev : HeadPrev} (notArray : fields.type_.base ≠ .array)
    (notObject : fields.type_.base ≠ .object) :
    ReadsBack library format (.mk fields child headPrev) := by
  intro depth limit name value text denotes rendered _
  have leaf : child = [] ∧ Item.leafValue? fields = some value := by
    unfold Item.value? at denotes
    cases base : fields.type_.base <;> simp_all
  rcases leaf with ⟨rfl, leafDenotes⟩
  cases base : fields.type_.base with
  | array => exact absurd base notArray
  | object => exact absurd base notObject
  | number => exact derives_number integers base leafDenotes rendered
  | null =>
      unfold Item.leafValue? at leafDenotes
      unfold rendering at rendered
      simp only [base] at leafDenotes rendered
      cases leafDenotes
      cases rendered
      exact ⟨_, .null, rfl, rfl⟩
  | false =>
      unfold Item.leafValue? at leafDenotes
      unfold rendering at rendered
      simp only [base] at leafDenotes rendered
      cases leafDenotes
      cases rendered
      exact ⟨_, .false, rfl, rfl⟩
  | true =>
      unfold Item.leafValue? at leafDenotes
      unfold rendering at rendered
      simp only [base] at leafDenotes rendered
      cases leafDenotes
      cases rendered
      exact ⟨_, .true, rfl, rfl⟩
  | string =>
      unfold Item.leafValue? at leafDenotes
      unfold rendering at rendered
      simp only [base] at leafDenotes rendered
      rcases Option.map_eq_some_iff.mp leafDenotes with ⟨block, blockFound, rfl⟩
      cases rendered
      rw [blockFound]
      refine ⟨_, .string (stringToken_stringText block), ?_, rfl⟩
      show some (Value.string (CString.text (CString.text block))) = _
      rw [text_text]
  | raw =>
      unfold Item.leafValue? at leafDenotes
      simp only [base] at leafDenotes
      cases leafDenotes
  | invalid =>
      unfold Item.leafValue? at leafDenotes
      simp only [base] at leafDenotes
      cases leafDenotes

/-- The rendering of every well-formed tree reads back. -/
theorem readsBack (integers : library.ReadsIntegers) (item : Item) : ReadsBack library format item := by
  induction item using Item.induct with
  | node fields child headPrev values =>
      by_cases array : fields.type_.base = .array
      · exact readsBack_array array values
      by_cases object : fields.type_.base = .object
      · exact readsBack_object object values
      exact readsBack_leaf integers array object

/-- A well-formed node has a rendering where it is not nested too deeply. -/
def HasRendering (library : CLibrary) (format : Bool) (item : Item) : Prop :=
  ∀ depth value, item.value? = some value -> depth + item.nesting ≤ nestingLimit ->
    ∃ text, rendering library format depth item = some text

theorem hasRendering_elements {items : List Item}
    (values : ∀ item ∈ items, HasRendering library format item) {depth : Nat} {elements : List Value}
    (denotes : Item.elements? items = some elements)
    (shallow : depth + Item.nestingBelow items ≤ nestingLimit) :
    ∃ text, renderElements library format depth items = some text := by
  induction items generalizing elements with
  | nil => exact ⟨_, rfl⟩
  | cons item rest hypothesis =>
      rcases Item.elements?_cons.mp denotes with ⟨value, others, valueFound, othersFound, rfl⟩
      rw [Item.nestingBelow] at shallow
      rcases values item List.mem_cons_self depth value valueFound (by omega) with ⟨front, frontFound⟩
      rcases hypothesis (fun other inside => values other (List.mem_cons_of_mem _ inside)) othersFound
        (by omega) with ⟨back, backFound⟩
      rw [renderElements, frontFound, backFound]
      exact ⟨_, rfl⟩

theorem hasRendering_members {items : List Item}
    (values : ∀ item ∈ items, HasRendering library format item) {depth : Nat}
    {members : List (Bytes × Value)} (denotes : Item.members? items = some members)
    (shallow : depth + Item.nestingBelow items ≤ nestingLimit) :
    ∃ text, renderMembers library format depth items = some text := by
  induction items generalizing members with
  | nil => exact ⟨_, rfl⟩
  | cons item rest hypothesis =>
      rcases Item.members?_cons.mp denotes with ⟨name, value, others, _, valueFound, othersFound, rfl⟩
      rw [Item.nestingBelow] at shallow
      rcases values item List.mem_cons_self depth value valueFound (by omega) with ⟨front, frontFound⟩
      rcases hypothesis (fun other inside => values other (List.mem_cons_of_mem _ inside)) othersFound
        (by omega) with ⟨back, backFound⟩
      rw [renderMembers, frontFound, backFound]
      exact ⟨_, rfl⟩

theorem hasRendering (item : Item) : HasRendering library format item := by
  induction item using Item.induct with
  | node fields child headPrev values =>
      intro depth value denotes shallow
      unfold Item.value? Item.leafValue? at denotes
      unfold Item.nesting at shallow
      unfold rendering
      cases base : fields.type_.base with
      | array =>
          simp only [base] at denotes shallow ⊢
          rcases Option.map_eq_some_iff.mp denotes with ⟨elements, elementsFound, _⟩
          rcases @hasRendering_elements library format child values (depth + 1) elements elementsFound
            (by omega) with ⟨inner, innerFound⟩
          rw [if_neg (by omega), innerFound]
          exact ⟨_, rfl⟩
      | object =>
          simp only [base] at denotes shallow ⊢
          rcases Option.map_eq_some_iff.mp denotes with ⟨members, membersFound, _⟩
          rcases @hasRendering_members library format child values (depth + 1) members membersFound
            (by omega) with ⟨inner, innerFound⟩
          rw [if_neg (by omega), innerFound]
          exact ⟨_, rfl⟩
      | number =>
          simp only [base] at denotes ⊢
          split at denotes
          · split at denotes
            · rename_i integral
              simp only [numberBuffer_ofInt integral.1, if_neg (decimalText_fits integral.2)]
              exact ⟨_, rfl⟩
            · cases denotes
          · cases denotes
      | null => exact ⟨_, rfl⟩
      | false => exact ⟨_, rfl⟩
      | true => exact ⟨_, rfl⟩
      | string => exact ⟨_, rfl⟩
      | raw =>
          simp only [base] at denotes
          split at denotes <;> cases denotes
      | invalid =>
          simp only [base] at denotes
          split at denotes <;> cases denotes

end Trees

/-! ## The round trip -/

/-- The rendering of a well-formed tree is a document, whose tree denotes the same
value. -/
theorem document_rendering {library : CLibrary} {format : Bool} {item : Item} {value : Value}
    {text : Bytes} (integers : library.ReadsIntegers) (denotes : item.value? = some value)
    (rendered : rendering library format 0 item = some text) :
    ∃ parsed, Document library text parsed ∧ parsed.value? = some value := by
  rcases readsBack integers item 0 nestingLimit none value text denotes rendered (Nat.zero_add _) with
    ⟨parsed, derives, parsedValue, _⟩
  refine ⟨parsed, ⟨[], [], text, [], ?_, Or.inl rfl, blank_nil, blank_nil, derives⟩, parsedValue⟩
  simp

/-- What a print of a tree with this value returns: a text that parses to the
same value, and not NULL if memory is granted and the rendering fits. -/
def RoundTrips (library : CLibrary) (format : Bool) (item : Item) (allocator : Allocator)
    (printed : Except Fault (Option Block × Allocator)) : Prop :=
  Returns printed fun result =>
    (∀ block, result.1 = some block -> ∀ hooks : Hooks, hooks.AlwaysSucceed ->
      ∃ parsed, cjsonParseWithOpts library hooks block.bytes true =
          .ok { item := some parsed, parseEnd := (text block.bytes).length, errorPosition := none } ∧
        parsed.value? = item.value?) ∧
    (allocator.hooks.AlwaysSucceed ->
      (∀ text, rendering library format 0 item = some text -> FitsIntMax text) ->
        result.1.isSome = true)

theorem printImpl_roundTrips {library : CLibrary} (integers : library.ReadsIntegers) {item : Item}
    (wellFormed : item.value?.isSome = true) (shallow : item.nesting ≤ nestingLimit) (format : Bool)
    (allocator : Allocator) :
    RoundTrips library format item allocator (printImpl library item format allocator) := by
  rcases Option.isSome_iff_exists.mp wellFormed with ⟨value, denotes⟩
  apply Returns.mono (printImpl_returns library item format allocator)
  rintro result ⟨holds, granted⟩
  constructor
  · intro block printed hooks succeeds
    rcases holds block printed with ⟨text, rendered, nulFree, bytes⟩
    rcases document_rendering integers denotes rendered with ⟨parsed, document, parsedValue⟩
    refine ⟨parsed, cjsonParseWithOpts_complete succeeds ?_, parsedValue.trans denotes.symm⟩
    rw [bytes, text_append_zero nulFree]
    exact document
  · intro succeeds fits
    rcases @hasRendering library format item 0 value denotes (by omega) with ⟨text, rendered⟩
    exact granted succeeds text rendered (fits text rendered)

/-- Printing a well-formed tree and parsing the text gives back its value, for
both kinds of output. -/
theorem print_parse_round_trip (library : CLibrary) (integers : library.ReadsIntegers) (item : Item)
    (wellFormed : item.value?.isSome = true) (shallow : item.nesting ≤ nestingLimit)
    (allocator : Allocator) :
    RoundTrips library true item allocator (cjsonPrint library item allocator) ∧
    RoundTrips library false item allocator (cjsonPrintUnformatted library item allocator) :=
  ⟨printImpl_roundTrips integers wellFormed shallow true allocator,
    printImpl_roundTrips integers wellFormed shallow false allocator⟩

/-- A member whose name needs an escape, with an array under it. -/
def nestedSample : Item :=
  .mk { type_ := { base := .object } }
    [.mk { type_ := { base := .array }, string := some [0x0A, 0x22, 0x61] }
      [.mk { type_ := { base := .number }, valueint := -7, valuedouble := .ofInt (-7) } [] .null,
        .mk { type_ := { base := .true } } [] .null] (.at 1)] (.at 0)

/-- The example library reads the integers it prints. -/
theorem decimalLibrary_readsIntegers : decimalLibrary.ReadsIntegers where
  strtod_eq value fits := by
    show decimalStrtod (decimalText value) = _
    have digits := decimalDigits_ne_nil value.natAbs
    have leading : leadingDigits (decimalDigits value.natAbs) = decimalDigits value.natAbs := by
      have whole := @leadingDigits_append (decimalDigits value.natAbs) []
        (fun byte inside => isDigit_of_mem_decimalDigits inside) (fun _ impossible => nomatch impossible)
      rwa [List.append_nil] at whole
    unfold decimalStrtod decimalText
    by_cases negative : value < 0
    · rw [if_pos negative, List.tail_cons, leading, if_pos ⟨rfl, digits⟩, digitsValue_decimalDigits,
        List.length_cons]
      congr 2
      omega
    · rw [if_neg negative, if_neg, leading, digitsValue_decimalDigits]
      · congr 2
        omega
      · rintro ⟨sign, _⟩
        exact absurd (isDigit_of_mem_decimalDigits (List.mem_of_mem_head? sign)) (by decide)
  point_not_digit := rfl
  point_not_sign := by decide

/-- The round trip of a small tree. -/
theorem print_parse_round_trip_nested :
    RoundTrips decimalLibrary true nestedSample ⟨grantAll, fun _ _ => 0, []⟩
      (cjsonPrint decimalLibrary nestedSample ⟨grantAll, fun _ _ => 0, []⟩) ∧
    RoundTrips decimalLibrary false nestedSample ⟨grantAll, fun _ _ => 0, []⟩
      (cjsonPrintUnformatted decimalLibrary nestedSample ⟨grantAll, fun _ _ => 0, []⟩) :=
  print_parse_round_trip decimalLibrary decimalLibrary_readsIntegers nestedSample (by decide)
    (by decide) ⟨grantAll, fun _ _ => 0, []⟩

end CJson
