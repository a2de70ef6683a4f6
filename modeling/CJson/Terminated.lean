import CJson.Prefix

/-!
# The terminator as a part of the buffer

`cJSON_Parse` passes the terminating NUL of its string as a part of the buffer,
`cJSON_ParseWithLength` is given a length that ends in front of it.  The parser
runs through both buffers side by side: as long as it succeeds, it asks for the
same memory and its cursors are at the same place.  Only the test for the byte
order mark looks further ahead than the bytes that it compares.
-/

namespace CJson

open CString ParseBuffer

/-- The same buffer with the terminator. -/
def ParseBuffer.terminated (buffer : ParseBuffer) : ParseBuffer :=
  { buffer with content := buffer.content ++ [0], length := buffer.length + 1 }

namespace ParseBuffer

variable {buffer : ParseBuffer}

@[simp] theorem terminated_offset : buffer.terminated.offset = buffer.offset := rfl

@[simp] theorem terminated_depth : buffer.terminated.depth = buffer.depth := rfl

@[simp] theorem terminated_length : buffer.terminated.length = buffer.length + 1 := rfl

@[simp] theorem terminated_granted (size : Nat) :
    buffer.terminated.granted size = buffer.granted size := rfl

theorem Valid.terminated (valid : buffer.Valid) : buffer.terminated.Valid := by
  have inside := valid.offset_le
  refine ⟨?_, ?_⟩
  · show buffer.length + 1 = (buffer.content ++ [0]).length
    rw [valid.length_eq, List.length_append, List.length_singleton]
  · show buffer.offset ≤ buffer.length + 1
    omega

theorem Valid.remaining_terminated (valid : buffer.Valid) :
    buffer.terminated.remaining = buffer.remaining ++ [0] := by
  have inside := valid.offset_le
  rw [valid.length_eq] at inside
  exact List.drop_append_of_le_length inside

theorem Valid.read_terminated (valid : buffer.Valid) {index : Nat} (inside : index < buffer.length) :
    buffer.terminated.read index = buffer.read index := by
  rw [valid.length_eq] at inside
  unfold ParseBuffer.read
  rw [show buffer.terminated.content = buffer.content ++ [0] from rfl,
    List.getElem?_append_left inside]

theorem Valid.read_terminator (valid : buffer.Valid) :
    buffer.terminated.read buffer.length = .ok 0 := by
  apply read_eq_ok.mpr
  rw [valid.length_eq]
  show (buffer.content ++ [0])[buffer.content.length]? = _
  rw [List.getElem?_append_right (Nat.le_refl _), Nat.sub_self]
  rfl

end ParseBuffer

/-- Two runs, without and with the terminator: where both return, they return the
same, and if that is not a failure, the cursors are at the same place. -/
def Agree {β : Type} (first second : Except Fault (Option β × ParseBuffer)) : Prop :=
  ∀ result after other after', first = .ok (result, after) -> second = .ok (other, after') ->
    other = result ∧ (result.isSome -> after' = after.terminated)

theorem agree_none {β : Type} {after after' : ParseBuffer} :
    Agree (.ok ((none : Option β), after)) (.ok (none, after')) := by
  intro result _ other _ same same'
  cases same
  cases same'
  exact ⟨rfl, fun impossible => nomatch impossible⟩

/-- Runs of which neither succeeds. -/
theorem agree_of_fails {β : Type} {first second : Except Fault (Option β × ParseBuffer)}
    (fails : ∀ found after, first ≠ .ok (some found, after))
    (fails' : ∀ found after, second ≠ .ok (some found, after)) : Agree first second := by
  intro result after other after' ran ran'
  cases result with
  | some found => exact absurd ran (fails found after)
  | none =>
      cases other with
      | some found => exact absurd ran' (fails' found after')
      | none => exact ⟨rfl, fun impossible => nomatch impossible⟩

theorem agree_some {β : Type} {found : β} {after : ParseBuffer} :
    Agree (.ok (some found, after)) (.ok (some found, after.terminated)) := by
  intro result _ other _ same same'
  cases same
  cases same'
  exact ⟨rfl, fun _ => rfl⟩

/-! ## Tokens -/

section Tokens

variable {library : CLibrary} {buffer : ParseBuffer}

/-- A literal does not reach the terminator. -/
theorem take_terminated {bytes literal : Bytes} (nulFree : (0 : UInt8) ∉ literal) :
    ((bytes ++ [0]).take literal.length == literal) = (bytes.take literal.length == literal) := by
  by_cases short : literal.length ≤ bytes.length
  · rw [List.take_append_of_le_length short]
  · have other : (bytes.take literal.length == literal) = false := by
      apply beq_eq_false_iff_ne.mpr
      intro same
      have lengths := congrArg List.length same
      rw [List.length_take] at lengths
      omega
    rw [other]
    apply beq_eq_false_iff_ne.mpr
    intro same
    rw [List.take_of_length_le (by rw [List.length_append, List.length_singleton]; omega)] at same
    apply nulFree
    rw [← same]
    exact List.mem_append_right bytes (List.mem_singleton_self 0)

/-- The terminator does not continue a number. -/
theorem takeWhile_terminated (bytes : Bytes) :
    (bytes ++ [0]).takeWhile isNumberByte = bytes.takeWhile isNumberByte := by
  rw [List.takeWhile_append]
  split
  · rename_i all
    have whole : bytes.takeWhile isNumberByte = bytes :=
      List.IsPrefix.eq_of_length (List.takeWhile_prefix _) all
    rw [whole, List.takeWhile_cons, if_neg (by decide), List.append_nil]
  · rfl

theorem seek_eq_ok {after : ParseBuffer} {offset : Nat} (moved : buffer.seek offset = .ok after) :
    after = { buffer with offset := offset } := by
  unfold ParseBuffer.seek at moved
  split at moved
  · cases moved
    rfl
  · cases moved

/-- A last move of the cursor. -/
theorem agree_seek {β : Type} {offset : Nat} {found : Option β} :
    Agree (do let buffer ← buffer.seek offset; .ok (found, buffer))
      (do let buffer ← buffer.terminated.seek offset; .ok (found, buffer)) := by
  intro result after other after' ran ran'
  rcases Except.bind_eq_ok.mp ran with ⟨moved, sought, ran⟩
  rcases Except.bind_eq_ok.mp ran' with ⟨moved', sought', ran'⟩
  cases ran
  cases ran'
  rw [seek_eq_ok sought, seek_eq_ok sought']
  exact ⟨rfl, fun _ => rfl⟩

theorem parseNumber_agrees (item : Item) (valid : buffer.Valid) :
    Agree (parseNumber library item buffer) (parseNumber library item buffer.terminated) := by
  rw [parseNumber_eq item valid, parseNumber_eq item valid.terminated, valid.remaining_terminated,
    takeWhile_terminated]
  rw [terminated_granted]
  split
  · exact agree_none
  · dsimp only
    split
    · exact agree_none
    · exact @agree_seek (buffer.requested _) _ _ _

/-- The first pass of `parse_string` does not find its quote in the terminator, so a
byte more in the buffer makes no difference to it. -/
theorem findClosingQuote_agrees (valid : buffer.Valid) {fuel fuel' index skipped : Nat}
    {found found' : Option (Nat × Nat)}
    (ran : findClosingQuote buffer fuel index skipped = .ok found)
    (ran' : findClosingQuote buffer.terminated fuel' index skipped = .ok found') : found' = found := by
  have longer := @terminated_length buffer
  induction fuel generalizing fuel' index skipped with
  | zero => cases ran
  | succ fuel hypothesis =>
      cases fuel' with
      | zero => cases ran'
      | succ fuel' =>
          -- behind the terminator there is nothing
          have behind : ∀ {fuel skipped}, findClosingQuote buffer.terminated fuel (buffer.length + 1) skipped =
              .ok found' -> found' = none := by
            intro fuel skipped ran
            cases fuel with
            | zero => cases ran
            | succ fuel =>
                rw [findClosingQuote, if_pos (by omega)] at ran
                cases ran
                rfl
          unfold findClosingQuote at ran ran'
          by_cases ended : buffer.length ≤ index
          · rw [if_pos ended] at ran
            cases ran
            by_cases beyond : buffer.terminated.length ≤ index
            · rw [if_pos beyond] at ran'
              cases ran'
              rfl
            · have last : index = buffer.length := by omega
              rw [if_neg beyond, last, valid.read_terminator, Except.ok_bind, if_neg (by decide),
                if_neg (by decide)] at ran'
              exact behind ran'
          · rw [if_neg ended] at ran
            rw [if_neg (by omega), valid.read_terminated (by omega)] at ran'
            rcases Except.bind_eq_ok.mp ran with ⟨byte, read, ran⟩
            rw [read, Except.ok_bind] at ran'
            by_cases quote : byte = 0x22
            · rw [if_pos quote] at ran ran'
              cases ran
              cases ran'
              rfl
            rw [if_neg quote] at ran ran'
            by_cases backslash : byte = 0x5C
            · rw [if_pos backslash] at ran ran'
              by_cases last : buffer.length ≤ index + 1
              · rw [if_pos last] at ran
                cases ran
                have next : index + 2 = buffer.length + 1 := by omega
                rw [if_neg (by omega), next] at ran'
                exact behind ran'
              · rw [if_neg last] at ran
                rw [if_neg (by omega)] at ran'
                exact hypothesis ran ran'
            · rw [if_neg backslash] at ran ran'
              exact hypothesis ran ran'

theorem sameBytes_terminated {count : Nat} (inside : count ≤ buffer.content.length) :
    SameBytes buffer 0 buffer.terminated 0 count := by
  intro index small
  show buffer.content[0 + index]? = (buffer.content ++ [0])[0 + index]?
  rw [List.getElem?_append_left (by omega)]

theorem parseStringBytes_agrees (valid : buffer.Valid) :
    Agree (parseStringBytes buffer) (parseStringBytes buffer.terminated) := by
  intro result after other after' ran ran'
  have fails : ∀ {buffer : ParseBuffer} {offset : Nat},
      Agree (failAfterQuote buffer offset : Except Fault (Option Bytes × ParseBuffer))
        (failAfterQuote buffer.terminated offset) :=
    fun {buffer offset} => @agree_seek buffer _ (offset + 1) none
  unfold parseStringBytes parseStringWith at ran ran'
  dsimp only [ParseState.buffer, ParseState.withBuffer, ParseState.requested, ParseState.deallocate] at ran ran'
  rcases Except.bind_eq_ok.mp ran with ⟨quote, read, ran⟩
  have inside : buffer.offset < buffer.length := by
    rw [valid.length_eq]
    exact (List.getElem?_eq_some_iff.mp (read_eq_ok.mp read)).1
  rcases Except.bind_eq_ok.mp ran' with ⟨quote', read', ran'⟩
  cases read.symm.trans ((valid.read_terminated inside).symm.trans read')
  by_cases opens : quote ≠ 0x22
  · rw [if_pos opens] at ran ran'
    exact fails _ _ _ _ ran ran'
  rw [if_neg opens] at ran ran'
  rcases Except.bind_eq_ok.mp ran with ⟨found, pass, ran⟩
  rcases Except.bind_eq_ok.mp ran' with ⟨found', pass', ran'⟩
  cases findClosingQuote_agrees valid pass pass'
  cases found with
  | none => exact fails _ _ _ _ ran ran'
  | some pair =>
      rcases pair with ⟨inputEnd, skippedBytes⟩
      dsimp only at ran ran'
      rw [terminated_granted, terminated_offset] at ran'
      split at ran
      · rename_i refused
        rw [if_pos refused] at ran'
        exact @fails (buffer.requested _) _ _ _ _ _ ran ran'
      · rename_i granted
        rw [if_neg granted] at ran'
        rcases findClosingQuote_sound pass with ⟨body, rest, split, _, place⟩
        have size := congrArg List.length split
        rw [List.length_drop, List.length_append, List.length_cons] at size
        rcases Except.bind_eq_ok.mp ran with ⟨⟨inputPointer, output⟩, decoded, ran⟩
        have same := @sameBytes_terminated (buffer.requested (inputEnd - buffer.offset - skippedBytes + 1))
          (inputEnd + 1) (by show inputEnd + 1 ≤ buffer.content.length; omega)
        have again : decodeString (buffer.requested (inputEnd - buffer.offset - skippedBytes + 1)).terminated
            inputEnd (inputEnd - buffer.offset) (buffer.offset + 1) [] = .ok (inputPointer, output) := by
          have zero : ∀ index : Nat, 0 + index = index := Nat.zero_add
          have copy := @decodeString_congr _ _ 0 0 inputEnd same (inputEnd - buffer.offset)
            (buffer.offset + 1) inputPointer [] output (by rw [zero, zero]; exact decoded)
          rcases copy with ⟨position, rfl, copy⟩
          rw [zero, zero] at copy
          exact copy
        rcases Except.bind_eq_ok.mp ran' with ⟨⟨inputPointer', output'⟩, decoded', ran'⟩
        cases again.symm.trans decoded'
        dsimp only at ran ran'
        split at ran
        · rename_i stopped
          rw [if_pos stopped] at ran'
          exact @agree_seek (buffer.requested _) _ _ none _ _ _ _ ran ran'
        · rename_i whole
          rw [if_neg whole] at ran'
          exact @agree_seek (buffer.requested _) _ _ (some output) _ _ _ _ ran ran'

theorem parseString_agrees (item : Item) (valid : buffer.Valid) :
    Agree (parseString item buffer) (parseString item buffer.terminated) := by
  intro result after other after' ran ran'
  rcases parseString_eq_ok.mp ran with ⟨output, parsed, rfl⟩
  rcases parseString_eq_ok.mp ran' with ⟨output', parsed', rfl⟩
  rcases parseStringBytes_agrees valid _ _ _ _ parsed parsed' with ⟨rfl, cursor⟩
  exact ⟨rfl, fun succeeded => cursor (by rwa [Option.isSome_map] at succeeded)⟩

end Tokens

/-! ## Blank bytes -/

section Blanks

variable {library : CLibrary} {buffer : ParseBuffer}

/-- The skipper stops at a token, and does not get to what is behind it. -/
theorem skippedWhitespace_append {bytes : Bytes} (token : ¬ Blank bytes) (rest : Bytes) :
    skippedWhitespace (bytes ++ rest) = skippedWhitespace bytes := by
  induction bytes using skippedWhitespace.induct with
  | case1 => exact absurd blank_nil token
  | case2 byte =>
      have large : ¬ byte ≤ 32 := by
        intro small
        apply token
        intro other inside
        cases List.mem_singleton.mp inside
        exact small
      cases rest with
      | nil => rfl
      | cons next rest =>
          show skippedWhitespace (byte :: next :: rest) = 0
          rw [skippedWhitespace, if_neg large]
  | case3 byte next behind small hypothesis =>
      have later : ¬ Blank (next :: behind) := by
        intro blank
        apply token
        intro other inside
        rcases List.mem_cons.mp inside with rfl | inside
        · exact small
        · exact blank other inside
      rw [List.cons_append, List.cons_append, skippedWhitespace, skippedWhitespace, if_pos small,
        if_pos small, ← List.cons_append, hypothesis later]
  | case4 byte next behind large =>
      rw [List.cons_append, List.cons_append, skippedWhitespace, skippedWhitespace, if_neg large,
        if_neg large]

/-- No token starts at the cursor: what is there is whitespace, or the end of the
buffer. -/
def Stuck (buffer : ParseBuffer) : Prop :=
  ∀ byte, buffer.remaining.head? = some byte -> byte ≤ 32

theorem stuck_of_blank (blank : Blank buffer.remaining) (count : Nat) : Stuck (buffer.skip count) := by
  intro byte head
  rw [remaining_skip] at head
  exact blank byte (List.mem_of_mem_drop (List.mem_of_mem_head? head))

theorem Stuck.guardedByte (stuck : Stuck buffer) (valid : buffer.Valid) {byte : UInt8}
    (large : 32 < byte) : buffer.guardedByte byte = .ok false := by
  rw [valid.guardedByte_eq]
  congr 1
  apply beq_eq_false_iff_ne.mpr
  intro head
  exact absurd (stuck byte head) (UInt8.not_le.mpr large)

theorem Stuck.parseValue (stuck : Stuck buffer) (valid : buffer.Valid) {fuel : Nat} {item : Item} :
    ∀ found after, parseValue library fuel item buffer ≠ .ok (some found, after) := by
  intro found after parsed
  cases fuel with
  | zero => cases parsed
  | succ fuel =>
      rw [parseValue_eq item valid] at parsed
      cases bytes : buffer.remaining with
      | nil =>
          rw [bytes] at parsed
          cases parsed
      | cons first rest =>
          have small := stuck first (by rw [bytes]; rfl)
          have other : ∀ byte : UInt8, 32 < byte -> first ≠ byte := by
            rintro byte large rfl
            exact absurd small (UInt8.not_le.mpr large)
          have noDigit : ¬ (first = 0x2D ∨ (48 ≤ first ∧ first ≤ 57)) := by
            rintro (rfl | ⟨lower, _⟩)
            · exact absurd small (by decide)
            · have bound := UInt8.le_iff_toNat_le.mp (UInt8.le_trans lower small)
              exact absurd bound (by decide)
          rw [bytes, if_neg (by simp [other 0x6E (by decide)]), if_neg (by simp [other 0x66 (by decide)]),
            if_neg (by simp [other 0x74 (by decide)])] at parsed
          dsimp only at parsed
          rw [if_neg (other 0x22 (by decide)), if_neg noDigit, if_neg (other 0x5B (by decide)),
            if_neg (other 0x7B (by decide))] at parsed
          cases parsed

theorem Stuck.parseString (stuck : Stuck buffer) {item : Item} :
    ∀ found after, parseString item buffer ≠ .ok (some found, after) := by
  intro found after parsed
  rcases parseString_eq_some.mp parsed with ⟨output, read, _⟩
  rcases parseStringBytes_sound read with ⟨token, rest, split, accepted, _⟩
  rcases accepted with ⟨body, _, rfl, _⟩
  exact absurd (stuck 0x22 (by rw [split]; rfl)) (by decide)

theorem Stuck.parseEntry (stuck : Stuck buffer) (valid : buffer.Valid) {fuel : Nat} {kind : Container} :
    ∀ found after, parseEntry library fuel kind buffer ≠ .ok (some found, after) := by
  intro found after parsed
  cases kind with
  | array => exact stuck.parseValue valid found after parsed
  | object =>
      rcases Except.bind_eq_ok.mp parsed with ⟨⟨name, last⟩, readName, parsed⟩
      cases name with
      | none => cases parsed
      | some name => exact stuck.parseString name last readName

/-- Entries are not read off blank bytes. -/
theorem parseEntries_blank (valid : buffer.Valid) {fuel : Nat} {kind : Container} {prior : UInt8}
    {rest : Bytes} (split : buffer.remaining = prior :: rest) (blank : Blank rest) :
    ∀ found after, parseEntries library kind fuel buffer ≠ .ok (some found, after) := by
  intro found after parsed
  cases fuel with
  | zero => cases kind <;> cases parsed
  | succ fuel =>
      rcases parseEntries_starts valid split parsed with ⟨granted, more⟩
      rw [parseEntries_eq kind valid split more granted] at parsed
      rcases Except.bind_eq_ok.mp parsed with ⟨⟨item, last⟩, readEntry, parsed⟩
      have requestedValid := valid.requested nodeSize
      have bytes : (buffer.requested nodeSize).remaining = prior :: rest := split
      have behindValid := requestedValid.skip (show 1 ≤ _ by rw [bytes]; simp)
      have behind : ((buffer.requested nodeSize).skip 1).remaining = rest := by
        rw [remaining_skip, bytes]
        rfl
      have stuck := stuck_of_blank (behind.symm ▸ blank) (skippedWhitespace rest)
      have startValid := behindValid.skipWhitespace
      rw [behind] at startValid
      rw [skip_skip] at stuck startValid
      cases item with
      | none => cases parsed
      | some item => exact stuck.parseEntry startValid item last readEntry

/-- Nor is a container. -/
theorem parseContainer_blank (valid : buffer.Valid) {fuel : Nat} {kind : Container} {item : Item}
    {rest : Bytes} (split : buffer.remaining = kind.opening :: rest) (blank : Blank rest) :
    ∀ found after, parseContainer library kind fuel item buffer ≠ .ok (some found, after) := by
  intro found after parsed
  cases fuel with
  | zero => cases kind <;> cases parsed
  | succ fuel =>
      rcases parseContainer_starts valid split parsed with ⟨shallow, more⟩
      have bound := skippedWhitespace_le rest
      have deeper : buffer.enter.Valid := valid.withDepth _
      have loopValid := deeper.skip (show skippedWhitespace rest ≤ buffer.remaining.length by
        rw [split, List.length_cons]
        omega)
      rcases drop_prior kind.opening bound with ⟨prior, dropped⟩
      have left : (buffer.enter.skip (skippedWhitespace rest)).remaining =
          prior :: rest.drop (skippedWhitespace rest) := by
        rw [remaining_skip]
        show buffer.remaining.drop _ = _
        rw [split, dropped]
      have behind : Blank (rest.drop (skippedWhitespace rest)) :=
        fun byte inside => blank byte (List.mem_of_mem_drop inside)
      have open_ : ((rest.drop (skippedWhitespace rest)).head? == some kind.closing) = false := by
        apply beq_eq_false_iff_ne.mpr
        intro head
        exact absurd (behind _ (List.mem_of_mem_head? head)) (UInt8.not_le.mpr kind.closing_large)
      rw [parseContainer_eq kind _ valid split more shallow, open_, if_neg Bool.false_ne_true] at parsed
      rcases Except.bind_eq_ok.mp parsed with ⟨⟨children, last⟩, readEntries, parsed⟩
      cases children with
      | none => cases parsed
      | some children => exact parseEntries_blank loopValid left behind children last readEntries

end Blanks

/-! ## The whole parser -/

/-- The same for the loops of the containers.  At the end of the buffer the cursors
may part: the one run stops at the end, the other one at the terminator, and no
bracket is found at either. -/
def AgreeEntries (first second : Except Fault (Option (List Item) × ParseBuffer)) : Prop :=
  ∀ result after other after', first = .ok (result, after) -> second = .ok (other, after') ->
    other = result ∧ (result.isSome -> after.Valid ∧
      (after' = after.terminated ∨ (Stuck after ∧ after'.Valid ∧ Stuck after')))

/-- The functions of the parser agree, with any fuel for the second run.  It is the
hypothesis of the induction on the fuel of the first. -/
structure Agrees (library : CLibrary) (fuel : Nat) : Prop where
  value : ∀ fuel' start name buffer, Fresh start name -> buffer.Valid ->
    Agree (parseValue library fuel start buffer) (parseValue library fuel' start buffer.terminated)
  container : ∀ fuel' kind start name buffer rest, Fresh start name -> buffer.Valid ->
    buffer.remaining = Container.opening kind :: rest ->
    Agree (parseContainer library kind fuel start buffer)
      (parseContainer library kind fuel' start buffer.terminated)
  entries : ∀ fuel' kind buffer prior rest, buffer.Valid -> buffer.remaining = prior :: rest ->
    AgreeEntries (parseEntries library kind fuel buffer)
      (parseEntries library kind fuel' buffer.terminated)

section Values

variable {library : CLibrary} {fuel : Nat}

theorem parseEntry_valid (consumes : library.ConsumesAtMost) {kind : Container} {item : Item}
    {buffer after : ParseBuffer} (valid : buffer.Valid)
    (parsed : parseEntry library fuel kind buffer = .ok (some item, after)) : after.Valid := by
  rcases parseEntry_sound (sound consumes fuel) kind valid item after parsed with
    ⟨text, rest, split, moved, _⟩
  exact moved.valid valid (by rw [split, List.length_append]; omega)

theorem parseString_valid {start item : Item} {buffer after : ParseBuffer} (valid : buffer.Valid)
    (parsed : parseString start buffer = .ok (some item, after)) : after.Valid := by
  rcases parseString_eq_some.mp parsed with ⟨output, read, _⟩
  rcases parseStringBytes_sound read with ⟨token, rest, split, _, moved⟩
  exact moved.valid valid (by rw [split, List.length_append]; omega)

theorem parseValue_agrees (below : Agrees library fuel) {fuel' : Nat} {start : Item}
    {name : Option Bytes} {buffer : ParseBuffer} (fresh : Fresh start name) (valid : buffer.Valid) :
    Agree (parseValue library (fuel + 1) start buffer)
      (parseValue library fuel' start buffer.terminated) := by
  cases fuel' with
  | zero =>
      intro result after other after' _ ran'
      cases ran'
  | succ fuel' =>
      have null : ((buffer.remaining ++ [0]).take 4 == [0x6E, 0x75, 0x6C, 0x6C]) =
          (buffer.remaining.take 4 == [0x6E, 0x75, 0x6C, 0x6C]) :=
        @take_terminated _ [0x6E, 0x75, 0x6C, 0x6C] (by decide)
      have false_ : ((buffer.remaining ++ [0]).take 5 == [0x66, 0x61, 0x6C, 0x73, 0x65]) =
          (buffer.remaining.take 5 == [0x66, 0x61, 0x6C, 0x73, 0x65]) :=
        @take_terminated _ [0x66, 0x61, 0x6C, 0x73, 0x65] (by decide)
      have true_ : ((buffer.remaining ++ [0]).take 4 == [0x74, 0x72, 0x75, 0x65]) =
          (buffer.remaining.take 4 == [0x74, 0x72, 0x75, 0x65]) :=
        @take_terminated _ [0x74, 0x72, 0x75, 0x65] (by decide)
      rw [parseValue_eq start valid, parseValue_eq start valid.terminated, valid.remaining_terminated]
      rw [null, false_, true_]
      split
      · exact @agree_some _ _ (buffer.skip 4)
      split
      · exact @agree_some _ _ (buffer.skip 5)
      split
      · exact @agree_some _ _ (buffer.skip 4)
      cases bytes : buffer.remaining with
      | nil =>
          dsimp only [List.nil_append]
          rw [if_neg (by decide), if_neg (by decide), if_neg (by decide), if_neg (by decide)]
          exact agree_none
      | cons first rest =>
          dsimp only [List.cons_append]
          split
          · exact parseString_agrees start valid
          split
          · exact parseNumber_agrees start valid
          split
          · rename_i bracket
            exact below.container fuel' .array start name buffer rest fresh valid (by rw [bytes, bracket]; rfl)
          split
          · rename_i brace
            exact below.container fuel' .object start name buffer rest fresh valid (by rw [bytes, brace]; rfl)
          · exact agree_none

theorem blank_terminated {bytes : Bytes} (blank : Blank bytes) : Blank (bytes ++ [0]) := by
  intro byte inside
  rcases List.mem_append.mp inside with inside | inside
  · exact blank byte inside
  · cases List.mem_singleton.mp inside
    decide

/-- The skippers get to the same token, or to the end of their buffers.  In the second
case both runs fail later, whatever they try to read. -/
theorem skip_agrees {buffer : ParseBuffer} (valid : buffer.Valid) :
    ∃ last last', bufferSkipWhitespace buffer = .ok last ∧
      bufferSkipWhitespace buffer.terminated = .ok last' ∧ last.Valid ∧
      (last' = last.terminated ∨ (Stuck last ∧ last'.Valid ∧ Stuck last')) := by
  refine ⟨_, _, valid.bufferSkipWhitespace_eq, valid.terminated.bufferSkipWhitespace_eq,
    valid.skipWhitespace, ?_⟩
  by_cases blank : Blank buffer.remaining
  · refine Or.inr ⟨stuck_of_blank blank _, valid.terminated.skipWhitespace, ?_⟩
    apply stuck_of_blank
    rw [valid.remaining_terminated]
    exact blank_terminated blank
  · rw [valid.remaining_terminated, skippedWhitespace_append blank]
    exact Or.inl rfl

theorem guardedByte_terminated {buffer : ParseBuffer} (valid : buffer.Valid) {byte : UInt8}
    (large : 32 < byte) : buffer.terminated.guardedByte byte = buffer.guardedByte byte := by
  rw [valid.guardedByte_eq, valid.terminated.guardedByte_eq, valid.remaining_terminated]
  cases buffer.remaining with
  | nil =>
      congr 1
      apply beq_eq_false_iff_ne.mpr
      intro same
      cases same
      exact absurd large (by decide)
  | cons first rest => rfl

theorem parseEntry_agrees (below : Agrees library fuel) {fuel' : Nat} (kind : Container)
    {buffer : ParseBuffer} (valid : buffer.Valid) :
    Agree (parseEntry library fuel kind buffer) (parseEntry library fuel' kind buffer.terminated) := by
  cases kind with
  | array => exact below.value fuel' newItem none buffer fresh_newItem valid
  | object =>
      intro result after other after' ran ran'
      rcases Except.bind_eq_ok.mp ran with ⟨⟨name, afterName⟩, readName, ran⟩
      rcases Except.bind_eq_ok.mp ran' with ⟨⟨name', afterName'⟩, readName', ran'⟩
      rcases parseString_agrees newItem valid _ _ _ _ readName readName' with ⟨rfl, cursor⟩
      cases name' with
      | none => exact agree_none _ _ _ _ ran ran'
      | some name =>
          cases cursor rfl
          have nameValid := parseString_valid valid readName
          have fresh : ∃ key, Fresh (swapName name) key := by
            rcases parseString_eq_some.mp readName with ⟨output, _, rfl⟩
            exact ⟨_, fresh_swapName output⟩
          rcases fresh with ⟨key, fresh⟩
          dsimp only at ran ran'
          rcases skip_agrees nameValid with ⟨last, last', skips, skips', lastValid, cases_⟩
          rw [skips, Except.ok_bind] at ran
          rw [skips', Except.ok_bind] at ran'
          rcases cases_ with rfl | ⟨stuck, lastValid', stuck'⟩
          · rw [guardedByte_terminated lastValid (by decide)] at ran'
            rcases Except.bind_eq_ok.mp ran with ⟨colon, guarded, ran⟩
            rw [guarded, Except.ok_bind] at ran'
            cases colon with
            | false => exact agree_none _ _ _ _ ran ran'
            | true =>
                rw [if_neg (by decide)] at ran ran'
                rcases Except.bind_eq_ok.mp ran with ⟨behind, advanced, ran⟩
                rcases Except.bind_eq_ok.mp ran' with ⟨behind', advanced', ran'⟩
                have inside : 1 ≤ last.remaining.length := by
                  rw [lastValid.guardedByte_eq] at guarded
                  injection guarded with head
                  cases bytes : last.remaining with
                  | nil =>
                      rw [bytes] at head
                      cases head
                  | cons first rest => simp
                rw [lastValid.advance_eq inside] at advanced
                rw [lastValid.terminated.advance_eq (by
                  rw [lastValid.remaining_terminated, List.length_append]
                  omega)] at advanced'
                cases advanced
                cases advanced'
                have behindValid := lastValid.skip inside
                rcases skip_agrees behindValid with ⟨start, start', skips, skips', startValid, cases_⟩
                rw [skips, Except.ok_bind] at ran
                rw [show last.terminated.skip 1 = (last.skip 1).terminated from rfl, skips',
                  Except.ok_bind] at ran'
                rcases cases_ with rfl | ⟨stuck, startValid', stuck'⟩
                · exact below.value fuel' _ key start fresh startValid _ _ _ _ ran ran'
                · exact agree_of_fails (stuck.parseValue startValid) (stuck'.parseValue startValid')
                    _ _ _ _ ran ran'
          · rw [stuck.guardedByte lastValid (by decide), Except.ok_bind, if_pos (by decide)] at ran
            rw [stuck'.guardedByte lastValid' (by decide), Except.ok_bind, if_pos (by decide)] at ran'
            exact agree_none _ _ _ _ ran ran'

theorem parseEntries_agrees (consumes : library.ConsumesAtMost) (below : Agrees library fuel)
    {fuel' : Nat} (kind : Container) {buffer : ParseBuffer} {prior : UInt8} {rest : Bytes}
    (valid : buffer.Valid) (split : buffer.remaining = prior :: rest) :
    AgreeEntries (parseEntries library kind (fuel + 1) buffer)
      (parseEntries library kind fuel' buffer.terminated) := by
  intro result after other after' ran ran'
  have split' : buffer.terminated.remaining = prior :: (rest ++ [0]) := by
    rw [valid.remaining_terminated, split]
    rfl
  have failed : result = none -> other = none -> other = result ∧ (result.isSome -> after.Valid ∧
      (after' = after.terminated ∨ (Stuck after ∧ after'.Valid ∧ Stuck after'))) := by
    rintro rfl rfl
    exact ⟨rfl, fun impossible => nomatch impossible⟩
  by_cases blank : Blank rest
  · apply failed
    · cases result with
      | none => rfl
      | some found => exact absurd ran (parseEntries_blank valid split blank found after)
    · cases other with
      | none => rfl
      | some found =>
          exact absurd ran' (parseEntries_blank valid.terminated split' (blank_terminated blank) found after')
  cases fuel' with
  | zero => cases kind <;> cases ran'
  | succ fuel' =>
      cases granted : buffer.granted nodeSize with
      | false =>
          have refused : ∀ {fuel : Nat} {buffer : ParseBuffer} {prior : UInt8} {rest : Bytes}
              {result : Option (List Item)} {after : ParseBuffer}, buffer.Valid ->
              buffer.remaining = prior :: rest -> buffer.granted nodeSize = false ->
              parseEntries library kind (fuel + 1) buffer = .ok (result, after) -> result = none := by
            intro fuel buffer prior rest result after valid split granted ran
            cases result with
            | none => rfl
            | some found => exact nomatch granted.symm.trans (parseEntries_starts valid split ran).1
          exact failed (refused valid split granted ran) (refused valid.terminated split' granted ran')
      | true =>
          have more : rest ≠ [] := by
            rintro rfl
            exact blank blank_nil
          rw [parseEntries_eq kind valid split (fun _ => more) granted] at ran
          rw [parseEntries_eq kind valid.terminated split' (by simp) granted,
            skippedWhitespace_append blank] at ran'
          have bytes : (buffer.requested nodeSize).remaining = prior :: rest := split
          have startValid := (valid.requested nodeSize).skip (show 1 + skippedWhitespace rest ≤ _ by
            rw [bytes, List.length_cons]
            have bound := skippedWhitespace_le rest
            omega)
          rcases Except.bind_eq_ok.mp ran with ⟨⟨item, afterEntry⟩, readEntry, ran⟩
          rcases Except.bind_eq_ok.mp ran' with ⟨⟨item', afterEntry'⟩, readEntry', ran'⟩
          rcases parseEntry_agrees below kind startValid _ _ _ _ readEntry readEntry' with ⟨rfl, cursor⟩
          cases item' with
          | none =>
              cases ran
              cases ran'
              exact failed rfl rfl
          | some item =>
              cases cursor rfl
              have entryValid := parseEntry_valid consumes startValid readEntry
              rw [continueEntries] at ran ran'
              rcases skip_agrees entryValid with ⟨last, last', skips, skips', lastValid, cases_⟩
              rw [skips, Except.ok_bind] at ran
              rw [skips', Except.ok_bind] at ran'
              rcases cases_ with rfl | ⟨stuck, lastValid', stuck'⟩
              · rw [guardedByte_terminated lastValid (by decide)] at ran'
                rcases Except.bind_eq_ok.mp ran with ⟨comma, guarded, ran⟩
                rw [guarded, Except.ok_bind] at ran'
                cases comma with
                | false =>
                    cases ran
                    cases ran'
                    exact ⟨rfl, fun _ => ⟨lastValid, Or.inl rfl⟩⟩
                | true =>
                    rw [if_pos rfl] at ran ran'
                    rcases Except.bind_eq_ok.mp ran with ⟨⟨others, final⟩, readRest, ran⟩
                    rcases Except.bind_eq_ok.mp ran' with ⟨⟨others', final'⟩, readRest', ran'⟩
                    cases ran
                    cases ran'
                    have lastBytes : ∃ first behind, last.remaining = first :: behind := by
                      rw [lastValid.guardedByte_eq] at guarded
                      cases bytes : last.remaining with
                      | nil =>
                          rw [bytes] at guarded
                          cases guarded
                      | cons first behind => exact ⟨first, behind, rfl⟩
                    rcases lastBytes with ⟨first, behind, lastSplit⟩
                    rcases below.entries fuel' kind last first behind lastValid lastSplit _ _ _ _
                      readRest readRest' with ⟨rfl, cursor⟩
                    exact ⟨rfl, fun succeeded => cursor (by rwa [Option.isSome_map] at succeeded)⟩
              · rw [stuck.guardedByte lastValid (by decide), Except.ok_bind, if_neg (by decide)] at ran
                rw [stuck'.guardedByte lastValid' (by decide), Except.ok_bind, if_neg (by decide)] at ran'
                cases ran
                cases ran'
                exact ⟨rfl, fun _ => ⟨lastValid, Or.inr ⟨stuck, lastValid', stuck'⟩⟩⟩

theorem finishEntries_agrees {kind : Container} {item : Item}
    {first second : Except Fault (Option (List Item) × ParseBuffer)}
    (entries : AgreeEntries first second) :
    Agree (first >>= finishEntries kind item) (second >>= finishEntries kind item) := by
  intro result after other after' ran ran'
  rcases Except.bind_eq_ok.mp ran with ⟨⟨children, last⟩, read, ran⟩
  rcases Except.bind_eq_ok.mp ran' with ⟨⟨children', last'⟩, read', ran'⟩
  rcases entries _ _ _ _ read read' with ⟨rfl, cursor⟩
  cases children' with
  | none => exact agree_none _ _ _ _ ran ran'
  | some children =>
      rcases cursor rfl with ⟨lastValid, rfl | ⟨stuck, lastValid', stuck'⟩⟩
      · rw [finishEntries] at ran ran'
        rw [guardedByte_terminated lastValid kind.closing_large] at ran'
        rcases Except.bind_eq_ok.mp ran with ⟨closes, guarded, ran⟩
        rw [guarded, Except.ok_bind] at ran'
        cases closes with
        | false => exact agree_none _ _ _ _ ran ran'
        | true =>
            rw [if_pos rfl] at ran ran'
            rcases Except.bind_eq_ok.mp ran with ⟨moved, advanced, ran⟩
            rcases Except.bind_eq_ok.mp ran' with ⟨moved', advanced', ran'⟩
            cases ran
            cases ran'
            rw [seek_eq_ok advanced, seek_eq_ok advanced']
            exact ⟨rfl, fun _ => rfl⟩
      · rw [finishEntries, stuck.guardedByte lastValid kind.closing_large, Except.ok_bind,
          if_neg (by decide)] at ran
        rw [finishEntries, stuck'.guardedByte lastValid' kind.closing_large, Except.ok_bind,
          if_neg (by decide)] at ran'
        exact agree_none _ _ _ _ ran ran'

theorem parseContainer_agrees (below : Agrees library fuel) {fuel' : Nat} (kind : Container)
    {start : Item} {buffer : ParseBuffer} {rest : Bytes} (valid : buffer.Valid)
    (split : buffer.remaining = kind.opening :: rest) :
    Agree (parseContainer library kind (fuel + 1) start buffer)
      (parseContainer library kind fuel' start buffer.terminated) := by
  have split' : buffer.terminated.remaining = kind.opening :: (rest ++ [0]) := by
    rw [valid.remaining_terminated, split]
    rfl
  by_cases blank : Blank rest
  · exact agree_of_fails (parseContainer_blank valid split blank)
      (parseContainer_blank valid.terminated split' (blank_terminated blank))
  cases fuel' with
  | zero =>
      intro result after other after' _ ran'
      cases kind <;> cases ran'
  | succ fuel' =>
      by_cases shallow : buffer.depth < nestingLimit
      · have more : rest ≠ [] := by
          rintro rfl
          exact blank blank_nil
        rw [parseContainer_eq kind start valid split more shallow,
          parseContainer_eq kind start valid.terminated split' (by simp) shallow,
          skippedWhitespace_append blank]
        have inside := skippedWhitespace_lt more
        rw [List.drop_append_of_le_length inside.le]
        have heads : (rest.drop (skippedWhitespace rest) ++ [0]).head? =
            (rest.drop (skippedWhitespace rest)).head? := by
          cases bytes : rest.drop (skippedWhitespace rest) with
          | nil =>
              have none := List.drop_eq_nil_iff.mp bytes
              omega
          | cons first behind => rfl
        rw [heads]
        split
        · exact @agree_some _ _ (buffer.skip (skippedWhitespace rest + 2))
        · have deeper : buffer.enter.Valid := valid.withDepth _
          have loopValid := deeper.skip (show skippedWhitespace rest ≤ buffer.remaining.length by
            rw [split, List.length_cons]
            omega)
          rcases drop_prior kind.opening inside.le with ⟨prior, dropped⟩
          have left : (buffer.enter.skip (skippedWhitespace rest)).remaining =
              prior :: rest.drop (skippedWhitespace rest) := by
            rw [remaining_skip]
            show buffer.remaining.drop _ = _
            rw [split, dropped]
          exact finishEntries_agrees (below.entries fuel' kind _ prior _ loopValid left)
      · apply agree_of_fails
        · intro found after ran
          exact shallow (parseContainer_starts valid split ran).1
        · intro found after ran
          exact shallow (parseContainer_starts valid.terminated split' ran).1

/-- Step by step, the two runs agree. -/
theorem agrees (consumes : library.ConsumesAtMost) (fuel : Nat) : Agrees library fuel := by
  induction fuel with
  | zero =>
      refine ⟨?_, ?_, ?_⟩
      · intro fuel' start name buffer _ _ result after other after' impossible
        cases impossible
      · intro fuel' kind start name buffer rest _ _ _ result after other after' impossible
        cases kind <;> cases impossible
      · intro fuel' kind buffer prior rest _ _ result after other after' impossible
        cases kind <;> cases impossible
  | succ fuel below =>
      refine ⟨?_, ?_, ?_⟩
      · intro fuel' start name buffer fresh valid
        exact parseValue_agrees below fresh valid
      · intro fuel' kind start name buffer rest _ valid split
        exact parseContainer_agrees below kind valid split
      · intro fuel' kind buffer prior rest valid split
        exact parseEntries_agrees consumes below kind valid split

end Values

/-! ## The entry points -/

section Entry

variable {library : CLibrary} {s : Bytes}

/-- The terminator makes a byte order mark visible that it would not be otherwise:
`skip_utf8_bom` wants two bytes behind it. -/
theorem markLength_terminated (s : Bytes) :
    markLength (s ++ [0]) = markLength s ∨ ∃ digit, s = byteOrderMark ++ [digit] := by
  unfold markLength
  by_cases marked : s.take 3 = byteOrderMark
  · have long : 3 ≤ s.length := by
      have size := congrArg List.length marked
      rw [List.length_take, show byteOrderMark.length = 3 from rfl] at size
      omega
    have same : (s ++ [0]).take 3 = byteOrderMark := by
      rw [List.take_append_of_le_length long, marked]
    by_cases four : s.length = 4
    · right
      have split := List.take_append_drop 3 s
      have one : (s.drop 3).length = 1 := by
        rw [List.length_drop]
        omega
      rcases List.length_eq_one_iff.mp one with ⟨digit, last⟩
      exact ⟨digit, by rw [← split, marked, last]⟩
    · left
      congr 1
      rw [List.length_append, List.length_singleton, same, marked]
      simp
      omega
  · left
    have plain : (if 4 < s.length ∧ s.take 3 = byteOrderMark then 3 else 0) = 0 :=
      if_neg (fun both => marked both.2)
    rw [plain, if_neg]
    rintro ⟨long, same⟩
    rw [List.length_append, List.length_singleton] at long
    rw [List.take_append_of_le_length (by omega)] at same
    exact marked same

theorem contentBuffer_terminated (hooks : Hooks) (s : Bytes) :
    contentBuffer hooks (s ++ [0]) = (contentBuffer hooks s).terminated := by
  unfold contentBuffer ParseBuffer.terminated
  rw [List.length_append, List.length_singleton]

theorem start_valid (hooks : Hooks) (content : Bytes) :
    ((contentBuffer hooks content).skip (leadLength content)).Valid := by
  have valid : (contentBuffer hooks content).Valid := ⟨rfl, Nat.zero_le _⟩
  exact valid.skip (leadLength_le (contentBuffer hooks content).remaining)

theorem start_stuck (hooks : Hooks) {content : Bytes} (blank : Blank (content.drop (markLength content))) :
    Stuck ((contentBuffer hooks content).skip (leadLength content)) := by
  intro byte head
  apply blank byte
  have inside := List.mem_of_mem_head? head
  rw [remaining_skip, leadLength, ← List.drop_drop] at inside
  exact List.mem_of_mem_drop inside

/-- Where the byte order mark is seen by both runs or by none, they agree. -/
theorem parse_agrees (consumes : library.ConsumesAtMost) {hooks : Hooks} {outcome outcome' : ParseOutcome}
    (mark : markLength (s ++ [0]) = markLength s)
    (ran : cjsonParseWithLengthOpts library hooks s s.length false = .ok outcome)
    (ran' : cjsonParseWithLengthOpts library hooks (s ++ [0]) (s ++ [0]).length false = .ok outcome') :
    outcome'.item = outcome.item := by
  by_cases empty : s = []
  · subst empty
    cases ran
    cases accepts : outcome'.item with
    | none => rfl
    | some item =>
        rcases accepted_of_parse consumes (by decide) ran' accepts with
          ⟨lead, core, rest, split, _, valueAt, _⟩
        rcases valueAt.head with ⟨first, text, rfl, large⟩
        have inside : first ∈ [] ++ [(0 : UInt8)] := by
          rw [split]
          simp
        cases List.mem_singleton.mp inside
        exact absurd large (by decide)
  have nonempty' : s ++ [0] ≠ [] := List.append_ne_nil_of_left_ne_nil empty [0]
  cases granted : (hooks.request nodeSize).1 with
  | false =>
      have none : ∀ {content : Bytes} {outcome : ParseOutcome}, content ≠ [] ->
          cjsonParseWithLengthOpts library hooks content content.length false = .ok outcome ->
          outcome.item = none := by
        intro content outcome nonempty ran
        cases accepts : outcome.item with
        | none => rfl
        | some item => exact nomatch granted.symm.trans (granted_of_parse nonempty ran accepts)
      rw [none empty ran, none nonempty' ran']
  | true =>
      rw [cjsonParseWithLengthOpts_eq empty granted] at ran
      rw [cjsonParseWithLengthOpts_eq nonempty' granted] at ran'
      rcases Except.bind_eq_ok.mp ran with ⟨⟨result, after⟩, read, ran⟩
      rcases Except.bind_eq_ok.mp ran' with ⟨⟨result', after'⟩, read', ran'⟩
      have items : outcome.item = result ∧ outcome'.item = result' := by
        constructor
        · cases result <;> cases ran <;> rfl
        · cases result' <;> cases ran' <;> rfl
      rw [items.1, items.2]
      have bound := markLength_le s
      by_cases blank : Blank (s.drop (markLength s))
      · have blank' : Blank ((s ++ [0]).drop (markLength (s ++ [0]))) := by
          rw [mark, List.drop_append_of_le_length bound]
          exact blank_terminated blank
        exact (agree_of_fails ((start_stuck hooks blank).parseValue (start_valid hooks s))
          ((start_stuck hooks blank').parseValue (start_valid hooks (s ++ [0]))) _ _ _ _ read read').1
      · have lead : leadLength (s ++ [0]) = leadLength s := by
          unfold leadLength
          rw [mark, List.drop_append_of_le_length bound, skippedWhitespace_append blank]
        rw [lead, contentBuffer_terminated] at read'
        exact ((agrees consumes _).value _ newItem none _ fresh_newItem (start_valid hooks s)
          _ _ _ _ read read').1

theorem StartsNumber.isNumberByte {first : UInt8} (start : StartsNumber first) :
    isNumberByte first = true := by
  rcases start with rfl | ⟨lower, upper⟩
  · decide
  · simp [CJson.isNumberByte, lower, upper]

/-- The whole buffer behind the byte order mark is one byte, which has to be a digit
then. -/
theorem parseValue_single (consumes : library.ConsumesAtMost) {buffer after : ParseBuffer} {fuel : Nat}
    {item : Item} {digit : UInt8} (valid : buffer.Valid) (split : buffer.remaining = [digit, 0])
    (parsed : parseValue library fuel newItem buffer = .ok (some item, after)) :
    StartsNumber digit ∧ ∃ number, NumberToken library [digit] number := by
  cases fuel with
  | zero => cases parsed
  | succ fuel =>
      by_cases start : StartsNumber digit
      · refine ⟨start, ?_⟩
        rw [parseValue_number newItem valid start split] at parsed
        rcases parseNumber_at consumes valid parsed with
          ⟨token, rest, number, whole, _, _, nonempty, value⟩
        have run : (token ++ rest).takeWhile CJson.isNumberByte = [digit] := by
          rw [← whole, split, List.takeWhile_cons, if_pos start.isNumberByte, List.takeWhile_cons,
            if_neg (by decide)]
        rw [run] at value
        have most := consumes (numberCString library [digit])
        rw [value, numberCString, List.length_map, List.length_singleton] at most
        have one : token.length = 1 := by
          have positive := List.length_pos_of_ne_nil nonempty
          dsimp only at most
          omega
        rw [one] at value
        refine ⟨number, ?_, List.cons_ne_nil _ _, value⟩
        intro byte inside
        cases List.mem_singleton.mp inside
        exact start.isNumberByte
      · have blank : Blank [0] := blank_terminated blank_nil
        rw [parseValue_eq newItem valid, split, if_neg (by simp), if_neg (by simp), if_neg (by simp)] at parsed
        dsimp only at parsed
        unfold StartsNumber at start
        split at parsed
        · -- no second quote follows
          rcases parseString_eq_some.mp parsed with ⟨output, read, _⟩
          rcases parseStringBytes_sound read with ⟨token, rest, whole, accepted, _⟩
          rcases accepted with ⟨body, _, rfl, _⟩
          rw [split, quoted] at whole
          injection whole with _ behind
          cases body with
          | nil => cases behind
          | cons byte body =>
              injection behind with _ behind
              have impossible := congrArg List.length behind
              simp at impossible
        · split at parsed
          · rename_i bracket
            exact absurd parsed (@parseContainer_blank _ _ valid _ .array _ [0]
              (by rw [split, bracket]; rfl) blank item after)
          split at parsed
          · rename_i brace
            exact absurd parsed (@parseContainer_blank _ _ valid _ .object _ [0]
              (by rw [split, brace]; rfl) blank item after)
          · cases parsed

/-- A byte order mark and one byte: without the terminator nothing is parsed. -/
theorem parse_marked_fails {hooks : Hooks} {digit : UInt8} {outcome : ParseOutcome}
    (ran : cjsonParseWithLengthOpts library hooks (byteOrderMark ++ [digit]) 4 false = .ok outcome) :
    outcome.item = none := by
  cases accepts : outcome.item with
  | none => rfl
  | some item =>
      have granted := @granted_of_parse _ _ (byteOrderMark ++ [digit]) _ _ _ (by simp) ran accepts
      have bytes : ((contentBuffer hooks (byteOrderMark ++ [digit])).skip
          (leadLength (byteOrderMark ++ [digit]))).remaining = [0xEF, 0xBB, 0xBF, digit] := rfl
      have valid := start_valid hooks (byteOrderMark ++ [digit])
      rw [show 4 = (byteOrderMark ++ [digit]).length from rfl,
        cjsonParseWithLengthOpts_eq (by simp) granted] at ran
      rcases Except.bind_eq_ok.mp ran with ⟨⟨result, after⟩, read, ran⟩
      rw [show parseFuel (byteOrderMark ++ [digit]).length = 14 + 1 from rfl,
        parseValue_eq newItem valid, bytes, if_neg (by simp), if_neg (by simp), if_neg (by simp)] at read
      cases read
      cases ran
      cases accepts

/-- The same with the terminator: the byte order mark is seen, and the byte is read as
a number. -/
theorem parse_marked_iff (consumes : library.ConsumesAtMost) {digit : UInt8} :
    (∃ hooks outcome item, cjsonParseWithLengthOpts library hooks (byteOrderMark ++ [digit] ++ [0]) 5 false =
      .ok outcome ∧ outcome.item = some item) ↔
      StartsNumber digit ∧ ∃ number, NumberToken library [digit] number := by
  have nonempty : byteOrderMark ++ [digit] ++ [0] ≠ [] := by simp
  have bytes : ∀ hooks, ((contentBuffer hooks (byteOrderMark ++ [digit] ++ [0])).skip
      (leadLength (byteOrderMark ++ [digit] ++ [0]))).remaining =
        [digit, 0].drop (skippedWhitespace [digit, 0]) := by
    intro hooks
    rw [remaining_skip]
    show (byteOrderMark ++ [digit] ++ [0]).drop (3 + skippedWhitespace [digit, 0]) = _
    rw [← List.drop_drop]
    rfl
  have large : StartsNumber digit -> ¬ digit ≤ 32 := by
    rintro (rfl | ⟨lower, _⟩) small
    · exact absurd small (by decide)
    · have bound := UInt8.le_iff_toNat_le.mp (UInt8.le_trans lower small)
      exact absurd bound (by decide)
  constructor
  · rintro ⟨hooks, outcome, item, ran, accepts⟩
    have granted := @granted_of_parse _ _ (byteOrderMark ++ [digit] ++ [0]) _ _ _ nonempty ran accepts
    have valid := start_valid hooks (byteOrderMark ++ [digit] ++ [0])
    rw [show 5 = (byteOrderMark ++ [digit] ++ [0]).length from rfl,
      cjsonParseWithLengthOpts_eq nonempty granted] at ran
    rcases Except.bind_eq_ok.mp ran with ⟨⟨result, after⟩, read, ran⟩
    cases result with
    | none =>
        cases ran
        cases accepts
    | some found =>
        by_cases small : digit ≤ 32
        · have stuck : Stuck ((contentBuffer hooks (byteOrderMark ++ [digit] ++ [0])).skip
              (leadLength (byteOrderMark ++ [digit] ++ [0]))) := by
            apply start_stuck
            have one : Blank [digit] := by
              intro byte inside
              cases List.mem_singleton.mp inside
              exact small
            exact blank_terminated one
          exact absurd read (stuck.parseValue valid found after)
        · have left := bytes hooks
          rw [skippedWhitespace, if_neg small, List.drop_zero] at left
          exact parseValue_single consumes valid left read
  · rintro ⟨start, number, accepted⟩
    have valid := start_valid grantAll (byteOrderMark ++ [digit] ++ [0])
    have left := bytes grantAll
    rw [skippedWhitespace, if_neg (large start), List.drop_zero] at left
    have accepts : NumberAt library [digit] [0] number :=
      (numberAt_iff_token accepted.bytes (by
        intro byte head
        cases head
        decide)).mpr accepted
    have read := accepts.reads newItem valid grantAll_alwaysSucceed left
    rw [← @parseValue_number _ _ 17 _ _ newItem valid start left] at read
    have ran : cjsonParseWithLengthOpts library grantAll (byteOrderMark ++ [digit] ++ [0]) 5 false =
        .ok { item := some (setNumber newItem number),
              parseEnd := leadLength (byteOrderMark ++ [digit] ++ [0]) + 1, errorPosition := none } := by
      have fuel : parseFuel (byteOrderMark ++ [digit] ++ [0]).length = 17 + 1 := rfl
      rw [show 5 = (byteOrderMark ++ [digit] ++ [0]).length from rfl,
        cjsonParseWithLengthOpts_eq nonempty rfl, fuel, read, Except.ok_bind]
      show Except.ok _ = _
      simp [contentBuffer]
    exact ⟨grantAll, _, _, ran, rfl⟩

/-- The two entry points, without and with the terminator in the buffer, return the
same for a C string, under any hooks, unless it is a byte order mark and one byte
that is a number. -/
theorem parse_lengths_agree_iff (consumes : library.ConsumesAtMost) (nulFree : (0 : UInt8) ∉ s) :
    (∀ hooks, ∃ result, cjsonParseWithLength library hooks s s.length = .ok result ∧
      cjsonParse library hooks s = .ok result) ↔
      ¬ ∃ digit number, s = byteOrderMark ++ [digit] ∧ StartsNumber digit ∧
        NumberToken library [digit] number := by
  have withLength : ∀ hooks, cjsonParseWithLength library hooks s s.length =
      (cjsonParseWithLengthOpts library hooks s s.length false).map ParseOutcome.item := by
    intro hooks
    unfold cjsonParseWithLength
    cases cjsonParseWithLengthOpts library hooks s s.length false <;> rfl
  have terminated : ∀ hooks, cjsonParse library hooks s =
      (cjsonParseWithLengthOpts library hooks (s ++ [0]) (s ++ [0]).length false).map
        ParseOutcome.item := by
    intro hooks
    unfold cjsonParse cjsonParseWithOpts
    rw [text_eq_self nulFree, List.length_append, List.length_singleton]
    cases cjsonParseWithLengthOpts library hooks (s ++ [0]) (s.length + 1) false <;> rfl
  constructor
  · rintro agree ⟨digit, number, rfl, start, accepted⟩
    rcases (parse_marked_iff consumes).mpr ⟨start, number, accepted⟩ with
      ⟨hooks, outcome, item, ran, accepts⟩
    rcases agree hooks with ⟨result, without, with_⟩
    rw [withLength] at without
    rw [terminated] at with_
    rcases cjsonParseWithLengthOpts_ends consumes hooks (byteOrderMark ++ [digit]) false with
      ⟨other, otherRan⟩
    rw [otherRan] at without
    change (cjsonParseWithLengthOpts library hooks (byteOrderMark ++ [digit] ++ [0]) 5 false).map _ = _ at with_
    rw [ran] at with_
    cases without
    injection with_ with same
    rw [parse_marked_fails otherRan, accepts] at same
    cases same
  · intro unmarked hooks
    rcases cjsonParseWithLengthOpts_ends consumes hooks s false with ⟨outcome, ran⟩
    rcases cjsonParseWithLengthOpts_ends consumes hooks (s ++ [0]) false with ⟨outcome', ran'⟩
    have same : outcome'.item = outcome.item := by
      rcases markLength_terminated s with mark | ⟨digit, rfl⟩
      · exact parse_agrees consumes mark ran ran'
      · rw [parse_marked_fails ran]
        cases accepts : outcome'.item with
        | none => rfl
        | some item =>
            rcases (parse_marked_iff consumes).mp ⟨hooks, outcome', item, ran', accepts⟩ with
              ⟨start, number, accepted⟩
            exact absurd ⟨digit, number, rfl, start, accepted⟩ unmarked
    refine ⟨outcome.item, ?_, ?_⟩
    · rw [withLength, ran]
      rfl
    · rw [terminated, ran', ← same]
      rfl

end Entry

/-- The text `1`. -/
theorem parse_lengths_agree_one : ∃ result,
    cjsonParseWithLength decimalLibrary grantAll [0x31] 1 = .ok result ∧
      cjsonParse decimalLibrary grantAll [0x31] = .ok result := by
  apply (@parse_lengths_agree_iff decimalLibrary [0x31] decimalLibrary_consumesAtMost (by decide)).mpr
  rintro ⟨digit, number, impossible, _⟩
  cases impossible

/-- Behind a byte order mark it is parsed only with the terminator. -/
theorem marked_digit_lengths_differ : ¬ ∃ result,
    cjsonParseWithLength decimalLibrary grantAll [0xEF, 0xBB, 0xBF, 0x31] 4 = .ok result ∧
      cjsonParse decimalLibrary grantAll [0xEF, 0xBB, 0xBF, 0x31] = .ok result := by
  rintro ⟨result, without, terminated⟩
  have fails : (cjsonParseWithLength decimalLibrary grantAll [0xEF, 0xBB, 0xBF, 0x31] 4).map
      Option.isSome = .ok false := by decide +kernel
  have succeeds : (cjsonParse decimalLibrary grantAll [0xEF, 0xBB, 0xBF, 0x31]).map Option.isSome =
      .ok true := by decide +kernel
  rw [without] at fails
  rw [terminated] at succeeds
  cases fails.symm.trans succeeds

end CJson
