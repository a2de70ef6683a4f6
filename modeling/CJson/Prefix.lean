import CJson.Document

/-!
# A value at the beginning of a buffer

Unless the terminator is required, `cJSON_ParseWithLengthOpts` reads whitespace
and one value, and does not care for the rest of the buffer.  Only a number looks
at the bytes behind it: `parse_number` hands the whole run of number bytes to
`strtod` and goes on where that has stopped.
-/

namespace CJson

open CString ParseBuffer

variable {library : CLibrary} {buffer : ParseBuffer}

/-- The bytes with which `parse_value` goes to `parse_number`: a digit, or a minus
sign. -/
def StartsNumber (first : UInt8) : Prop := first = 0x2D ∨ (48 ≤ first ∧ first ≤ 57)

/-- The text that `parse_number` accepts in front of `rest`, and its value.  How much
of the run of number bytes belongs to it is for the C library to say, so that it
depends on what follows. -/
structure NumberAt (library : CLibrary) (token rest : Bytes) (number : Binary64) : Prop where
  nonempty : token ≠ []
  value : library.strtod (numberCString library ((token ++ rest).takeWhile isNumberByte)) =
    (number, token.length)

/-- Where the run ends with the token, the token is one by itself. -/
theorem numberAt_iff_token {token rest : Bytes} {number : Binary64}
    (bytes : ∀ byte ∈ token, isNumberByte byte = true) (ends : EndsNumber rest) :
    NumberAt library token rest number ↔ NumberToken library token number := by
  constructor
  · rintro ⟨nonempty, value⟩
    rw [takeWhile_token bytes ends] at value
    exact ⟨bytes, nonempty, value⟩
  · rintro ⟨_, nonempty, value⟩
    refine ⟨nonempty, ?_⟩
    rw [takeWhile_token bytes ends]
    exact value

/-- A value in front of `rest`, and the tree it denotes.  Only a number looks at what
follows. -/
inductive ValueAt (library : CLibrary) (rest : Bytes) : Bytes -> Item -> Prop where
  | number {first : UInt8} {token : Bytes} {number : Binary64} (start : StartsNumber first)
      (accepted : NumberAt library (first :: token) rest number) :
      ValueAt library rest (first :: token) (setNumber newItem number)
  | other {first : UInt8} {text : Bytes} {item : Item} (start : ¬ StartsNumber first)
      (derives : Derives library (.value none) nestingLimit (first :: text) [item]) :
      ValueAt library rest (first :: text) item

/-- The byte buffers that are accepted: whitespace, a value, and anything, or the
terminator behind nothing but whitespace.  The byte order mark is left to the caller
of this relation. -/
def Accepted (library : CLibrary) (requireNullTerminated : Bool) (content : Bytes) (item : Item) : Prop :=
  ∃ lead core rest, content = lead ++ (core ++ rest) ∧ Blank lead ∧ ValueAt library rest core item ∧
    (requireNullTerminated = true -> ∃ tail, rest = tail ++ [0] ∧ Blank tail)

/-! ## Numbers -/

theorem parseNumber_eq (item : Item) (valid : buffer.Valid) :
    parseNumber library item buffer =
      if !buffer.granted ((buffer.remaining.takeWhile isNumberByte).length + 1) then
        .ok (none, buffer.requested ((buffer.remaining.takeWhile isNumberByte).length + 1))
      else
        let converted := library.strtod (numberCString library (buffer.remaining.takeWhile isNumberByte))
        let buffer := buffer.requested ((buffer.remaining.takeWhile isNumberByte).length + 1)
        if converted.2 = 0 then .ok (none, buffer)
        else (do
          let buffer ← buffer.advance converted.2
          .ok (some (setNumber item converted.1), buffer)) := by
  have total := valid.remaining_length
  have run := @numberRun_eq buffer valid (buffer.length - buffer.offset) 0 (by omega)
  rw [List.drop_zero, Nat.zero_add] at run
  have whole := @List.takeWhile_append_dropWhile _ isNumberByte buffer.remaining
  unfold parseNumber
  dsimp only [ParseState.buffer, ParseState.withBuffer, ParseState.requested, ParseState.deallocate]
  rw [run, Except.ok_bind]
  generalize buffer.remaining.takeWhile isNumberByte = slice at run whole ⊢
  have size := congrArg List.length whole
  rw [List.length_append] at size
  have copied : readSlice (buffer.requested (slice.length + 1))
      (buffer.requested (slice.length + 1)).offset slice.length = .ok slice := by
    have direct := valid.readSlice_eq (show slice.length ≤ buffer.remaining.length by omega)
    rw [← whole, List.take_left] at direct
    exact direct
  rw [copied, Except.ok_bind]
  rfl

/-- A byte that can start a number starts no other token. -/
theorem StartsNumber.notLetter {first : UInt8} (start : StartsNumber first) :
    first ≠ 0x6E ∧ first ≠ 0x66 ∧ first ≠ 0x74 ∧ first ≠ 0x22 := by
  rcases start with rfl | digit
  · decide
  · have upper := UInt8.le_iff_toNat_le.mp digit.2
    have lower := UInt8.le_iff_toNat_le.mp digit.1
    simp [← UInt8.toNat_inj] at lower upper ⊢
    omega

theorem parseValue_number {fuel : Nat} {first : UInt8} {bytes : Bytes} (item : Item)
    (valid : buffer.Valid) (start : StartsNumber first) (split : buffer.remaining = first :: bytes) :
    parseValue library (fuel + 1) item buffer = parseNumber library item buffer := by
  have notLetter := start.notLetter
  rw [parseValue_eq _ valid, split, if_neg (by simp [notLetter]), if_neg (by simp [notLetter]),
    if_neg (by simp [notLetter])]
  dsimp only
  rw [if_neg notLetter.2.2.2]
  exact if_pos start

/-! ## Soundness -/

/-- Where `parse_number` succeeds: the cursor has passed the bytes that `strtod` has
taken, and `NumberAt` says what may stand behind them. -/
theorem parseNumber_at (consumes : library.ConsumesAtMost) {item result : Item} {after : ParseBuffer}
    (valid : buffer.Valid) (parsed : parseNumber library item buffer = .ok (some result, after)) :
    ∃ token rest number, buffer.remaining = token ++ rest ∧ result = setNumber item number ∧
      buffer.Moved token.length after ∧ NumberAt library token rest number := by
  have whole := @List.takeWhile_append_dropWhile _ isNumberByte buffer.remaining
  have most := consumes (numberCString library (buffer.remaining.takeWhile isNumberByte))
  rw [numberCString, List.length_map] at most
  rw [parseNumber_eq item valid] at parsed
  split at parsed
  · cases parsed
  · dsimp only at parsed
    rcases converted : library.strtod (numberCString library
      (buffer.remaining.takeWhile isNumberByte)) with ⟨number, consumed⟩
    rw [converted] at parsed
    rw [← numberCString, converted] at most
    dsimp only at parsed most
    by_cases nothing : consumed = 0
    · rw [if_pos nothing] at parsed
      cases parsed
    have size := congrArg List.length whole
    rw [List.length_append] at size
    have inside : consumed ≤ buffer.remaining.length := by omega
    rw [if_neg nothing, (valid.requested _).advance_eq inside, Except.ok_bind] at parsed
    cases parsed
    have length : (buffer.remaining.take consumed).length = consumed := List.length_take_of_le inside
    refine ⟨buffer.remaining.take consumed, buffer.remaining.drop consumed, number,
      (List.take_append_drop _ _).symm, rfl, ?_, ?_, ?_⟩
    · rw [length]
      exact ⟨rfl, rfl, rfl, rfl⟩
    · intro empty
      rw [empty] at length
      exact nothing length.symm
    · rw [List.take_append_drop, length]
      exact converted

/-- Values other than numbers are phrases whatever follows them, because their own
last byte ends them. -/
theorem parseValue_anywhere (consumes : library.ConsumesAtMost) {fuel : Nat} {start : Item}
    {name : Option Bytes} {first : UInt8} {bytes : Bytes} (fresh : Fresh start name)
    (valid : buffer.Valid) (split : buffer.remaining = first :: bytes)
    (noNumber : ¬ StartsNumber first) :
    RecognizesAnywhere library name buffer (parseValue library fuel start buffer) := by
  cases fuel with
  | zero =>
      intro item after impossible
      cases impossible
  | succ fuel =>
      rw [parseValue_eq start valid]
      by_cases isNull : (buffer.remaining.take 4 == [0x6E, 0x75, 0x6C, 0x6C]) = true
      · rw [if_pos isNull]
        rcases fresh with ⟨type_, rfl⟩
        exact recognizes_literal (fun _ => .null) isNull
      rw [if_neg isNull]
      by_cases isFalse : (buffer.remaining.take 5 == [0x66, 0x61, 0x6C, 0x73, 0x65]) = true
      · rw [if_pos isFalse]
        rcases fresh with ⟨type_, rfl⟩
        exact recognizes_literal (fun _ => .false) isFalse
      rw [if_neg isFalse]
      by_cases isTrue : (buffer.remaining.take 4 == [0x74, 0x72, 0x75, 0x65]) = true
      · rw [if_pos isTrue]
        rcases fresh with ⟨type_, rfl⟩
        exact recognizes_literal (fun _ => .true) isTrue
      rw [if_neg isTrue, split]
      dsimp only
      by_cases quote : first = 0x22
      · rw [if_pos quote]
        exact recognizes_string fresh
      rw [if_neg quote]
      have container : ∀ kind : Container, first = kind.opening ->
          RecognizesAnywhere library name buffer (parseContainer library kind fuel start buffer) := by
        intro kind opens
        cases fuel with
        | zero =>
            intro item after impossible
            cases kind <;> cases impossible
        | succ fuel => exact parseContainer_sound (sound consumes fuel) kind fresh valid (opens ▸ split)
      unfold StartsNumber at noNumber
      rw [if_neg noNumber]
      by_cases bracket : first = 0x5B
      · rw [if_pos bracket]
        exact container .array bracket
      rw [if_neg bracket]
      by_cases brace : first = 0x7B
      · rw [if_pos brace]
        exact container .object brace
      · rw [if_neg brace]
        exact recognizes_none

/-- What `parse_value` accepts is a value in front of what is left. -/
theorem parseValue_valueAt (consumes : library.ConsumesAtMost) {fuel : Nat} {item : Item}
    {after : ParseBuffer} (valid : buffer.Valid) (top : buffer.depth = 0)
    (parsed : parseValue library fuel newItem buffer = .ok (some item, after)) :
    ∃ core rest, buffer.remaining = core ++ rest ∧ buffer.Moved core.length after ∧
      ValueAt library rest core item := by
  cases fuel with
  | zero => cases parsed
  | succ fuel =>
      have limitEq : nestingLimit - buffer.depth = nestingLimit := by rw [top, Nat.sub_zero]
      cases bytes : buffer.remaining with
      | nil =>
          rw [parseValue_eq newItem valid, bytes] at parsed
          cases parsed
      | cons first rest =>
          by_cases start : StartsNumber first
          · rw [parseValue_number newItem valid start bytes] at parsed
            rcases parseNumber_at consumes valid parsed with ⟨token, rest, number, split, rfl, moved, accepted⟩
            rw [← bytes]
            refine ⟨token, rest, split, moved, ?_⟩
            cases token with
            | nil => exact absurd rfl accepted.nonempty
            | cons other token =>
                rw [bytes] at split
                injection split with same _
                subst same
                exact .number start accepted
          · rw [← bytes]
            rcases parseValue_anywhere consumes fresh_newItem valid bytes start item after parsed with
              ⟨text, rest, split, moved, derives⟩
            refine ⟨text, rest, split, moved, ?_⟩
            rw [limitEq] at derives
            rcases derives_head derives with ⟨other, tail, rfl, _⟩
            rw [bytes] at split
            injection split with same _
            subst same
            exact .other start derives

/-! ## Completeness -/

theorem anywhere_of_derives {name : Option Bytes} {limit : Nat} {text : Bytes} {items : List Item}
    (derives : Derives library (.value name) limit text items)
    (noNumber : ∀ first, text.head? = some first -> ¬ StartsNumber first) :
    ∃ item, items = [item] ∧ ReadsAnywhere library name limit text item := by
  cases derives with
  | null => exact ⟨_, rfl, reads_null⟩
  | false => exact ⟨_, rfl, reads_false⟩
  | true => exact ⟨_, rfl, reads_true⟩
  | string accepted => exact ⟨_, rfl, reads_string accepted⟩
  | number start _ => exact absurd start (noNumber _ rfl)
  | empty kind blank => exact ⟨_, rfl, reads_empty kind blank⟩
  | filled kind blank entries =>
      exact ⟨_, rfl, reads_filled kind blank entries (reads_of_derives entries)⟩

theorem NumberAt.reads {token rest : Bytes} {number : Binary64} (item : Item) (valid : buffer.Valid)
    (succeeds : buffer.hooks.AlwaysSucceed) (split : buffer.remaining = token ++ rest)
    (accepted : NumberAt library token rest number) :
    parseNumber library item buffer = .ok (some (setNumber item number), buffer.skip token.length) := by
  have positive : token.length ≠ 0 := fun empty => accepted.nonempty (List.length_eq_zero_iff.mp empty)
  rw [parseNumber_eq item valid, granted_eq succeeds, if_neg (by decide), requested_eq succeeds, split,
    accepted.value]
  dsimp only
  rw [if_neg positive, valid.advance_eq (by rw [split, List.length_append]; omega), Except.ok_bind]

theorem ValueAt.reads {core rest : Bytes} {item : Item} {fuel : Nat} (valueAt : ValueAt library rest core item)
    (valid : buffer.Valid) (succeeds : buffer.hooks.AlwaysSucceed) (top : buffer.depth = 0)
    (split : buffer.remaining = core ++ rest) (enough : 3 * buffer.remaining.length + 3 ≤ fuel) :
    parseValue library fuel newItem buffer = .ok (some item, buffer.skip core.length) := by
  cases valueAt with
  | number start accepted =>
      rcases exists_fuel enough with ⟨fuel, rfl, _⟩
      rw [parseValue_number newItem valid start split]
      exact accepted.reads newItem valid succeeds split
  | other start derives =>
      rcases anywhere_of_derives derives (by
        intro first head
        cases head
        exact start) with ⟨found, same, reads⟩
      cases same
      exact reads newItem buffer rest fuel fresh_newItem valid succeeds (by rw [top]; omega) split enough

theorem ValueAt.head {core rest : Bytes} {item : Item} (valueAt : ValueAt library rest core item) :
    ∃ first text, core = first :: text ∧ 32 < first := by
  cases valueAt with
  | number start _ =>
      refine ⟨_, _, rfl, ?_⟩
      rcases start with rfl | ⟨lower, _⟩
      · show (32 : UInt8) < 0x2D
        decide
      · have bound := UInt8.le_iff_toNat_le.mp lower
        exact UInt8.lt_iff_toNat_lt.mpr (by simp at bound ⊢; omega)
  | other _ derives =>
      rcases derives_head derives with ⟨first, text, same, large, _⟩
      exact ⟨first, text, same, large⟩

/-! ## The entry point -/

theorem leadLength_unmarked {content : Bytes} (unmarked : ¬ byteOrderMark <+: content) :
    leadLength content = skippedWhitespace content := by
  have none : markLength content = 0 := by
    rw [markLength, if_neg]
    rintro ⟨_, marked⟩
    exact unmarked ⟨content.drop 3, by rw [← marked, List.take_append_drop]⟩
  rw [leadLength, none, Nat.zero_add, List.drop_zero]

/-- Without a block for the root there is no tree. -/
theorem granted_of_parse {hooks : Hooks} {content : Bytes} {requireNullTerminated : Bool}
    {outcome : ParseOutcome} {item : Item} (nonempty : content ≠ [])
    (parsed : cjsonParseWithLengthOpts library hooks content content.length
      requireNullTerminated = .ok outcome) (accepts : outcome.item = some item) :
    (hooks.request nodeSize).1 = true := by
  cases granted : (hooks.request nodeSize).1 with
  | true => rfl
  | false =>
      rw [cjsonParseWithLengthOpts_refused nonempty granted] at parsed
      cases parsed
      cases accepts

theorem accepted_of_parse (consumes : library.ConsumesAtMost) {hooks : Hooks} {content : Bytes}
    (unmarked : ¬ byteOrderMark <+: content) {requireNullTerminated : Bool} {outcome : ParseOutcome}
    {item : Item} (parsed : cjsonParseWithLengthOpts library hooks content content.length
      requireNullTerminated = .ok outcome) (accepts : outcome.item = some item) :
    Accepted library requireNullTerminated content item := by
  have nonempty : content ≠ [] := by
    rintro rfl
    cases parsed
    cases accepts
  have granted := granted_of_parse nonempty parsed accepts
  rw [cjsonParseWithLengthOpts_eq nonempty granted, leadLength_unmarked unmarked] at parsed
  have valid : (contentBuffer hooks content).Valid := ⟨rfl, Nat.zero_le _⟩
  have start : ((contentBuffer hooks content).skip (skippedWhitespace content)).Valid :=
    valid.skip (skippedWhitespace_le content)
  have startLeft : ((contentBuffer hooks content).skip (skippedWhitespace content)).remaining =
      content.drop (skippedWhitespace content) := remaining_skip _ _
  rcases Except.bind_eq_ok.mp parsed with ⟨⟨found, after⟩, read, finished⟩
  rcases skip_split content with ⟨lead, fromCore, leadSplit, blankLead, _, coreEq⟩
  cases found with
  | none =>
      cases requireNullTerminated <;> cases finished <;> cases accepts
  | some found =>
      rcases parseValue_valueAt consumes start rfl read with ⟨core, rest, split, moved, valueAt⟩
      rw [startLeft] at split
      have afterValid := moved.valid start (by rw [startLeft, split]; simp)
      have afterLeft : after.remaining = rest := by
        rw [moved.remaining, startLeft, split, List.drop_left]
      have whole : content = lead ++ (core ++ rest) := by
        rw [← split, ← coreEq]
        exact leadSplit
      cases requireNullTerminated with
      | false =>
          cases finished
          cases accepts
          exact ⟨lead, core, rest, whole, blankLead, valueAt, fun impossible => nomatch impossible⟩
      | true =>
          rcases finishDocument_sound afterValid finished accepts with ⟨rfl, terminated⟩
          rw [afterLeft] at terminated
          exact ⟨lead, core, rest, whole, blankLead, valueAt, fun _ => terminated⟩

theorem parse_of_accepted {hooks : Hooks} (succeeds : hooks.AlwaysSucceed) {content : Bytes}
    (unmarked : ¬ byteOrderMark <+: content) {requireNullTerminated : Bool} {item : Item}
    (accepted : Accepted library requireNullTerminated content item) :
    ∃ outcome, cjsonParseWithLengthOpts library hooks content content.length requireNullTerminated =
      .ok outcome ∧ outcome.item = some item := by
  rcases accepted with ⟨lead, core, rest, split, blankLead, valueAt, terminated⟩
  rcases valueAt.head with ⟨first, text, rfl, large⟩
  have nonempty : content ≠ [] := by
    rintro rfl
    simp at split
  have leadEq : leadLength content = lead.length := by
    rw [leadLength_unmarked unmarked, split, List.cons_append, skippedWhitespace_blank blankLead large]
  have valid : (contentBuffer hooks content).Valid := ⟨rfl, Nat.zero_le _⟩
  have start : ((contentBuffer hooks content).skip (leadLength content)).Valid :=
    valid.skip (leadLength_le (contentBuffer hooks content).remaining)
  have startLeft : ((contentBuffer hooks content).skip (leadLength content)).remaining =
      first :: text ++ rest := by
    rw [remaining_skip, leadEq]
    show content.drop _ = _
    rw [split, List.drop_left]
  have hooksEq : (hooks.request nodeSize).2 = hooks := by
    rw [Hooks.request_of_alwaysSucceed succeeds]
  have covered : 3 * ((contentBuffer hooks content).skip (leadLength content)).remaining.length + 3 ≤
      parseFuel content.length := by
    rw [startLeft, parseFuel, split]
    simp only [List.length_append]
    omega
  have read := valueAt.reads start
    (by show Hooks.AlwaysSucceed (hooks.request nodeSize).2; rw [hooksEq]; exact succeeds)
    rfl startLeft covered
  rw [cjsonParseWithLengthOpts_eq nonempty (succeeds 0 nodeSize), read, Except.ok_bind]
  cases requireNullTerminated with
  | false => exact ⟨_, rfl, rfl⟩
  | true =>
      rcases terminated rfl with ⟨tail, rfl, blankTail⟩
      have last := start.skip (show (first :: text).length ≤ _ by
        rw [startLeft, List.length_append]
        omega)
      have lastLeft : (((contentBuffer hooks content).skip (leadLength content)).skip
          (first :: text).length).remaining = tail ++ [0] := by
        rw [remaining_skip, startLeft, List.drop_left]
      exact ⟨_, finishDocument_complete last lastLeft blankTail, rfl⟩

theorem wellLinked_leaf {fields : Fields} {headPrev : HeadPrev} :
    (Item.mk fields [] headPrev).WellLinked :=
  .mk (fun some => absurd rfl some) (fun _ impossible => absurd impossible List.not_mem_nil)

/-- The lists of a parsed tree are well linked. -/
theorem derives_wellLinked {phrase : Phrase} {limit : Nat} {text : Bytes} {items : List Item}
    (derives : Derives library phrase limit text items) : ∀ item ∈ items, item.WellLinked := by
  induction derives with
  | null | false | true | string | number | empty =>
      intro item member
      cases List.mem_singleton.mp member
      exact wellLinked_leaf
  | @filled _ _ _ _ _ children _ _ below =>
      intro item member
      cases List.mem_singleton.mp member
      refine .mk (fun some => ?_) below
      rw [if_neg (by simpa using some)]
  | element _ below => exact below
  | member _ _ _ _ below => exact below
  | last _ _ below => exact below
  | more _ _ _ _ first others =>
      intro item member
      rcases List.mem_cons.mp member with rfl | inside
      · exact first item List.mem_cons_self
      · exact others item inside

theorem Accepted.wellLinked {requireNullTerminated : Bool} {content : Bytes} {item : Item}
    (accepted : Accepted library requireNullTerminated content item) : item.WellLinked := by
  rcases accepted with ⟨_, _, _, _, _, valueAt, _⟩
  cases valueAt with
  | number => exact wellLinked_leaf
  | other _ derives => exact derives_wellLinked derives item List.mem_cons_self

theorem cjsonParseWithLengthOpts_ends (consumes : library.ConsumesAtMost) (hooks : Hooks)
    (content : Bytes) (requireNullTerminated : Bool) :
    ∃ outcome, cjsonParseWithLengthOpts library hooks content content.length requireNullTerminated =
      .ok outcome := by
  by_cases empty : content = []
  · subst empty
    exact ⟨_, rfl⟩
  · rcases cjsonParseWithLengthOpts_returns consumes hooks empty requireNullTerminated with
      ⟨outcome, ran, _⟩
    exact ⟨outcome, ran⟩

/-- `cJSON_ParseWithLengthOpts` returns for every buffer without a byte order mark.
It returns a tree only if the buffer starts with a value that denotes this tree,
and it returns that tree if no request for memory is refused. -/
theorem parseWithLengthOpts_accepts (consumes : library.ConsumesAtMost) (hooks : Hooks)
    {content : Bytes} (unmarked : ¬ byteOrderMark <+: content) (requireNullTerminated : Bool) :
    ∃ outcome, cjsonParseWithLengthOpts library hooks content content.length requireNullTerminated =
        .ok outcome ∧
      ∀ item,
        (outcome.item = some item ->
          Accepted library requireNullTerminated content item ∧ item.WellLinked) ∧
        (hooks.AlwaysSucceed -> Accepted library requireNullTerminated content item ->
          outcome.item = some item) := by
  rcases cjsonParseWithLengthOpts_ends consumes hooks content requireNullTerminated with ⟨outcome, ran⟩
  refine ⟨outcome, ran, ?_⟩
  intro item
  constructor
  · intro accepts
    have accepted := accepted_of_parse consumes unmarked ran accepts
    exact ⟨accepted, accepted.wellLinked⟩
  · intro succeeds accepted
    rcases parse_of_accepted succeeds unmarked accepted with ⟨other, otherRan, accepts⟩
    cases ran.symm.trans otherRan
    exact accepts

/-- The buffer `null-`, with and without the terminator required. -/
theorem parseWithLengthOpts_accepts_null : ∃ outcome,
    cjsonParseWithLengthOpts decimalLibrary grantAll [0x6E, 0x75, 0x6C, 0x6C, 0x2D] 5 false = .ok outcome ∧
      outcome.item = some (setLiteral newItem .null 0) ∧
      ¬ Accepted decimalLibrary true [0x6E, 0x75, 0x6C, 0x6C, 0x2D] (setLiteral newItem .null 0) := by
  have unmarked : ¬ byteOrderMark <+: [0x6E, 0x75, 0x6C, 0x6C, 0x2D] := by decide
  rcases parseWithLengthOpts_accepts decimalLibrary_consumesAtMost grantAll unmarked false with
    ⟨outcome, ran, accepts⟩
  refine ⟨outcome, ran, ?_, ?_⟩
  · apply (accepts _).2 grantAll_alwaysSucceed
    refine ⟨[], [0x6E, 0x75, 0x6C, 0x6C], [0x2D], rfl, blank_nil, ?_, fun impossible => nomatch impossible⟩
    exact .other (by unfold StartsNumber; decide) .null
  · rintro ⟨lead, core, rest, split, _, _, terminated⟩
    rcases terminated rfl with ⟨tail, rfl, _⟩
    have last := congrArg List.getLast? split
    rw [← List.append_assoc, ← List.append_assoc, List.getLast?_concat] at last
    cases last

end CJson
