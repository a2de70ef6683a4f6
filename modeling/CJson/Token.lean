import CJson.ParseSafety
import Mathlib.Data.List.TakeWhile

/-!
# Tokens

A string or number at the cursor is a token: a piece of text that the parser
accepts on its own and that means the same wherever it stands.  For strings
this takes an argument.  The second pass of `parse_string` may disagree with
the first about which backslashes introduce an escape, but neither reads past
the quote at which the first one stops; so the result depends only on the bytes
between the two quotes.
-/

namespace CJson

open CString ParseBuffer

/-- Hooks that grant every request. -/
def grantAll : Hooks := ⟨fun _ _ => true, true⟩

/-- The buffer that holds a text and nothing else. -/
def bufferOf (text : Bytes) : ParseBuffer := ⟨text, text.length, 0, 0, grantAll⟩

theorem grantAll_alwaysSucceed : grantAll.AlwaysSucceed := fun _ _ => rfl

theorem bufferOf_valid (text : Bytes) : (bufferOf text).Valid := ⟨rfl, Nat.zero_le _⟩

/-! ## The first pass -/

/-- What may stand between two quotes: plain bytes, and backslashes with the byte
behind them.  Which escapes are known does not matter to the search for the closing
quote. -/
inductive QuotedBody : Bytes -> Prop where
  | done : QuotedBody []
  | plain {byte : UInt8} {rest : Bytes} (notQuote : byte ≠ 0x22) (notBackslash : byte ≠ 0x5C) :
      QuotedBody rest -> QuotedBody (byte :: rest)
  | escape {byte : UInt8} {rest : Bytes} : QuotedBody rest -> QuotedBody (0x5C :: byte :: rest)

theorem drop_eq_cons {content : Bytes} {index : Nat} {byte : UInt8}
    (found : content[index]? = some byte) : content.drop index = byte :: content.drop (index + 1) := by
  rcases List.getElem?_eq_some_iff.mp found with ⟨inside, same⟩
  rw [← same]
  exact List.drop_eq_getElem_cons inside

theorem getElem?_of_drop {content : Bytes} {index : Nat} {byte : UInt8} {rest : Bytes}
    (bytes : content.drop index = byte :: rest) :
    content[index]? = some byte ∧ content.drop (index + 1) = rest := by
  constructor
  · have head := @List.getElem?_drop _ content index 0
    rw [bytes] at head
    exact head.symm
  · rw [← List.drop_drop, bytes]
    rfl

theorem read_eq_ok {buffer : ParseBuffer} {index : Nat} {byte : UInt8} :
    buffer.read index = .ok byte ↔ buffer.content[index]? = some byte := by
  unfold ParseBuffer.read
  cases buffer.content[index]? with
  | none => simp
  | some found => simp

/-- Where the first pass finds the closing quote, everything before it is the
body of a literal. -/
theorem findClosingQuote_sound {buffer : ParseBuffer} {fuel start skipped quote total : Nat}
    (found : findClosingQuote buffer fuel start skipped = .ok (some (quote, total))) :
    ∃ body rest, buffer.content.drop start = body ++ 0x22 :: rest ∧ QuotedBody body ∧
      quote = start + body.length := by
  induction fuel generalizing start skipped with
  | zero => cases found
  | succ fuel hypothesis =>
      unfold findClosingQuote at found
      by_cases ended : buffer.length ≤ start
      · rw [if_pos ended] at found
        cases found
      rw [if_neg ended] at found
      rcases Except.bind_eq_ok.mp found with ⟨byte, read, found⟩
      have bytes := drop_eq_cons (read_eq_ok.mp read)
      by_cases isQuote : byte = 0x22
      · rw [if_pos isQuote] at found
        cases found
        exact ⟨[], _, by rw [bytes, isQuote]; rfl, .done, rfl⟩
      rw [if_neg isQuote] at found
      by_cases isBackslash : byte = 0x5C
      · rw [if_pos isBackslash] at found
        by_cases last : buffer.length ≤ start + 1
        · rw [if_pos last] at found
          cases found
        rw [if_neg last] at found
        rcases hypothesis found with ⟨body, rest, split, shape, position⟩
        cases next : buffer.content.drop (start + 1) with
        | nil =>
            have beyond : buffer.content.drop (start + 1 + 1) = [] := by
              rw [← List.drop_drop, next]
              rfl
            rw [beyond] at split
            simp at split
        | cons code remaining =>
            have behind := (getElem?_of_drop next).2
            refine ⟨0x5C :: code :: body, rest, ?_, .escape shape, ?_⟩
            · rw [bytes, next, isBackslash, ← behind, split]
              rfl
            · rw [position]
              simp only [List.length_cons]
              omega
      · rw [if_neg isBackslash] at found
        rcases hypothesis found with ⟨body, rest, split, shape, position⟩
        refine ⟨byte :: body, rest, ?_, .plain isQuote isBackslash shape, ?_⟩
        · rw [bytes, split]
          rfl
        · rw [position]
          simp only [List.length_cons]
          omega

theorem findClosingQuote_complete {buffer : ParseBuffer} (valid : buffer.Valid) {body : Bytes}
    (shape : QuotedBody body) {fuel start skipped : Nat} {rest : Bytes}
    (split : buffer.content.drop start = body ++ 0x22 :: rest) (enough : body.length < fuel) :
    ∃ total, findClosingQuote buffer fuel start skipped =
      .ok (some (start + body.length, total)) := by
  have length := congrArg List.length split
  rw [List.length_drop, ← valid.length_eq, List.length_append, List.length_cons] at length
  induction shape generalizing fuel start skipped with
  | done =>
      cases fuel with
      | zero => exact absurd enough (Nat.not_lt_zero _)
      | succ fuel =>
          have read := read_eq_ok.mpr (getElem?_of_drop split).1
          refine ⟨skipped, ?_⟩
          rw [findClosingQuote, if_neg (by omega), read, Except.ok_bind, if_pos rfl]
          rfl
  | @plain byte body notQuote notBackslash shape hypothesis =>
      cases fuel with
      | zero => exact absurd enough (Nat.not_lt_zero _)
      | succ fuel =>
          have first := getElem?_of_drop split
          simp only [List.length_cons] at enough length
          rcases @hypothesis fuel (start + 1) skipped first.2 (by omega) (by omega) with ⟨total, found⟩
          refine ⟨total, ?_⟩
          rw [findClosingQuote, if_neg (by omega), read_eq_ok.mpr first.1, Except.ok_bind,
            if_neg notQuote, if_neg notBackslash, found, List.length_cons]
          simp only [Except.ok.injEq, Option.some.injEq, Prod.mk.injEq, and_true]
          omega
  | @escape byte body shape hypothesis =>
      cases fuel with
      | zero => exact absurd enough (Nat.not_lt_zero _)
      | succ fuel =>
          have first := getElem?_of_drop split
          have second := getElem?_of_drop first.2
          simp only [List.length_cons] at enough length
          rcases @hypothesis fuel (start + 2) (skipped + 1) second.2 (by omega) (by omega) with
            ⟨total, found⟩
          refine ⟨total, ?_⟩
          rw [findClosingQuote, if_neg (by omega), read_eq_ok.mpr first.1, Except.ok_bind,
            if_neg (by decide), if_pos rfl, if_neg (by omega), found, List.length_cons,
            List.length_cons]
          simp only [Except.ok.injEq, Option.some.injEq, Prod.mk.injEq, and_true]
          omega

/-! ## The second pass -/

/-- Two buffers hold the same `count` bytes, from an index of each on.  A function
that reads no others does the same on both. -/
def SameBytes (first : ParseBuffer) (start : Nat) (second : ParseBuffer) (other count : Nat) : Prop :=
  ∀ index < count, first.content[start + index]? = second.content[other + index]?

section Congruence

variable {first second : ParseBuffer} {start other count : Nat}

theorem SameBytes.symm (same : SameBytes first start second other count) :
    SameBytes second other first start count :=
  fun index inside => (same index inside).symm

theorem SameBytes.read (same : SameBytes first start second other count) {index : Nat}
    (inside : index < count) : first.read (start + index) = second.read (other + index) := by
  unfold ParseBuffer.read
  rw [same index inside]

theorem parseHexLoop_congr (same : SameBytes first start second other count)
    {digits index h : Nat} (inside : index + digits ≤ count) :
    parseHexLoop first digits (start + index) h = parseHexLoop second digits (other + index) h := by
  induction digits generalizing index h with
  | zero => rfl
  | succ digits hypothesis =>
      unfold parseHexLoop
      rw [same.read (by omega)]
      congr 1
      funext byte
      cases hexDigit byte with
      | none => rfl
      | some digit =>
          simp only [Nat.add_assoc]
          exact hypothesis (by omega)

theorem utf16Codepoint_congr (same : SameBytes first start second other count)
    {index last : Nat} (inside : last ≤ count) :
    utf16Codepoint first (start + index) (start + last) =
      utf16Codepoint second (other + index) (other + last) := by
  unfold utf16Codepoint
  rw [Nat.add_sub_add_left, Nat.add_sub_add_left]
  by_cases short : last - index < 6
  · rw [if_pos short, if_pos short]
  rw [if_neg short, if_neg short, parseHex4, parseHex4, Nat.add_assoc, Nat.add_assoc,
    parseHexLoop_congr same (by omega)]
  congr 1
  funext firstCode
  simp only [Nat.add_assoc, Nat.add_sub_add_left]
  by_cases pair : last - (index + 6) < 6
  · rw [if_pos pair, if_pos pair]
  rw [if_neg pair, if_neg pair, same.read (by omega), same.read (by omega), parseHex4, parseHex4,
    parseHexLoop_congr same (by omega)]

/-- The second pass reads no further than the closing quote, so two buffers that agree
up to there give the same string. -/
theorem decodeString_congr (same : SameBytes first start second other (count + 1))
    {fuel index pointer : Nat} {output result : Bytes}
    (decoded : decodeString first (start + count) fuel (start + index) output =
      .ok (pointer, result)) :
    ∃ position, pointer = start + position ∧
      decodeString second (other + count) fuel (other + index) output =
        .ok (other + position, result) := by
  induction fuel generalizing index output with
  | zero => cases decoded
  | succ fuel hypothesis =>
      unfold decodeString at decoded ⊢
      by_cases ended : count ≤ index
      · rw [if_pos (by omega)] at decoded
        cases decoded
        exact ⟨index, rfl, if_pos (by omega)⟩
      rw [if_neg (by omega)] at decoded
      rw [if_neg (by omega)]
      rw [same.read (by omega)] at decoded
      rcases Except.bind_eq_ok.mp decoded with ⟨byte, read, decoded⟩
      rw [read, Except.ok_bind]
      by_cases plain : byte ≠ 0x5C
      · rw [if_pos plain, Nat.add_assoc] at decoded ⊢
        exact hypothesis decoded
      rw [if_neg plain] at decoded ⊢
      rw [Nat.add_assoc, same.read (by omega)] at decoded
      rcases Except.bind_eq_ok.mp decoded with ⟨code, readCode, decoded⟩
      rw [Nat.add_assoc, readCode, Except.ok_bind]
      cases escape : simpleEscape code with
      | some escaped =>
          simp only [escape, Nat.add_assoc] at decoded ⊢
          exact hypothesis decoded
      | none =>
          simp only [escape] at decoded ⊢
          by_cases unicode : code = 0x75
          · rw [if_pos unicode] at decoded ⊢
            rw [utf16LiteralToUtf8, utf16Codepoint_congr same (by omega)] at decoded
            rw [utf16LiteralToUtf8]
            rcases Except.bind_eq_ok.mp decoded with ⟨literal, converted, decoded⟩
            rw [converted, Except.ok_bind]
            rcases literal with ⟨sequenceLength, bytes⟩
            simp only at decoded ⊢
            by_cases failed : sequenceLength = 0
            · rw [if_pos failed] at decoded ⊢
              cases decoded
              exact ⟨index, rfl, rfl⟩
            · rw [if_neg failed] at decoded ⊢
              rw [Nat.add_assoc] at decoded ⊢
              exact hypothesis decoded
          · rw [if_neg unicode] at decoded ⊢
            cases decoded
            exact ⟨index, rfl, rfl⟩

end Congruence

/-! ## String tokens -/

/-- A body between two quotes. -/
def quoted (body : Bytes) : Bytes := 0x22 :: (body ++ [0x22])

@[simp] theorem quoted_length (body : Bytes) : (quoted body).length = body.length + 2 := by
  simp [quoted]

/-- A text that `parse_string` accepts, and what it reads.  The decoder is run on the
token alone, since what it does to a token does not depend on where this stands. -/
def StringToken (token output : Bytes) : Prop :=
  ∃ body pointer, token = quoted body ∧ QuotedBody body ∧
    decodeString (bufferOf (quoted body)) (body.length + 1) (body.length + 1) 1 [] =
      .ok (pointer, output) ∧ body.length + 1 ≤ pointer

theorem sameBytes_of_remaining {buffer : ParseBuffer} {token rest : Bytes}
    (split : buffer.remaining = token ++ rest) :
    SameBytes buffer buffer.offset (bufferOf token) 0 token.length := by
  intro index inside
  have found : buffer.remaining[index]? = token[index]? := by
    rw [split, List.getElem?_append_left inside]
  rw [ParseBuffer.remaining, List.getElem?_drop] at found
  rw [found, bufferOf, Nat.zero_add]

theorem parseStringBytes_sound {buffer after : ParseBuffer} {output : Bytes}
    (parsed : parseStringBytes buffer = .ok (some output, after)) :
    ∃ token rest, buffer.remaining = token ++ rest ∧ StringToken token output ∧
      buffer.Moved token.length after := by
  unfold parseStringBytes parseStringWith at parsed
  dsimp only [ParseState.buffer, ParseState.withBuffer, ParseState.requested, ParseState.deallocate] at parsed
  rcases Except.bind_eq_ok.mp parsed with ⟨quote, read, parsed⟩
  have fails : ∀ {other : ParseBuffer} {offset : Nat},
      failAfterQuote other offset ≠ .ok (some output, after) := by
    intro other offset same
    rcases Except.bind_eq_ok.mp same with ⟨_, _, impossible⟩
    cases impossible
  by_cases notQuote : quote ≠ 0x22
  · rw [if_pos notQuote] at parsed
    exact absurd parsed fails
  rw [if_neg notQuote] at parsed
  rcases Except.bind_eq_ok.mp parsed with ⟨found, closing, parsed⟩
  cases found with
  | none => exact absurd parsed fails
  | some pair =>
      rcases pair with ⟨inputEnd, skippedBytes⟩
      rcases findClosingQuote_sound closing with ⟨body, rest, split, shape, position⟩
      simp only at parsed
      by_cases refused : (!buffer.granted (inputEnd - buffer.offset - skippedBytes + 1)) = true
      · rw [if_pos refused] at parsed
        exact absurd parsed fails
      rw [if_neg refused] at parsed
      rcases Except.bind_eq_ok.mp parsed with ⟨result, decoded, parsed⟩
      rcases result with ⟨pointer, written⟩
      simp only at parsed
      by_cases short : pointer < inputEnd
      · rw [if_pos short] at parsed
        rcases Except.bind_eq_ok.mp parsed with ⟨_, _, impossible⟩
        cases impossible
      rw [if_neg short] at parsed
      rcases Except.bind_eq_ok.mp parsed with ⟨last, moved, parsed⟩
      have bytes : buffer.remaining = quoted body ++ rest := by
        rw [ParseBuffer.remaining, drop_eq_cons (read_eq_ok.mp read), split, not_not.mp notQuote]
        simp [quoted]
      have same : SameBytes (buffer.requested (inputEnd - buffer.offset - skippedBytes + 1))
          buffer.offset (bufferOf (quoted body)) 0 (body.length + 1 + 1) := by
        have agree := sameBytes_of_remaining bytes
        rw [quoted_length] at agree
        exact agree
      have ends : inputEnd = buffer.offset + (body.length + 1) := by omega
      have fuelEq : inputEnd - buffer.offset = body.length + 1 := by omega
      rw [fuelEq] at decoded same
      rw [ends] at decoded
      rcases decodeString_congr same decoded with ⟨final, finalEq, alone⟩
      rw [Nat.zero_add, Nat.zero_add, Nat.zero_add] at alone
      refine ⟨quoted body, rest, bytes, ⟨body, final, rfl, shape, ?_, by omega⟩, ?_⟩
      · cases parsed
        exact alone
      · cases parsed
        unfold ParseBuffer.seek at moved
        by_cases inside : inputEnd + 1 ≤
            (buffer.requested (inputEnd - buffer.offset - skippedBytes + 1)).length
        · rw [if_pos inside] at moved
          cases moved
          refine ⟨rfl, rfl, rfl, ?_⟩
          rw [quoted_length]
          simp only
          omega
        · rw [if_neg inside] at moved
          cases moved

theorem parseStringBytes_complete {buffer : ParseBuffer} {token rest output : Bytes}
    (valid : buffer.Valid) (succeeds : buffer.hooks.AlwaysSucceed)
    (split : buffer.remaining = token ++ rest) (accepted : StringToken token output) :
    parseStringBytes buffer = .ok (some output, buffer.skip token.length) := by
  rcases accepted with ⟨body, pointer, rfl, shape, decoded, whole⟩
  have total := valid.remaining_length
  have size := congrArg List.length split
  rw [List.length_append, quoted_length] at size
  have bytes : buffer.remaining = 0x22 :: (body ++ 0x22 :: rest) := by
    rw [split]
    simp [quoted]
  have behind : buffer.content.drop (buffer.offset + 1) = body ++ 0x22 :: rest :=
    (getElem?_of_drop bytes).2
  rcases @findClosingQuote_complete buffer valid body shape (buffer.length + 1 - buffer.offset)
    (buffer.offset + 1) 0 rest behind (by omega) with ⟨skipped, closing⟩
  have same : SameBytes (bufferOf (quoted body)) 0 buffer buffer.offset (body.length + 1 + 1) := by
    have agree := (sameBytes_of_remaining split).symm
    rw [quoted_length] at agree
    exact agree
  have start : decodeString (bufferOf (quoted body)) (0 + (body.length + 1)) (body.length + 1)
      (0 + 1) [] = .ok (pointer, output) := by
    rw [Nat.zero_add, Nat.zero_add]
    exact decoded
  rcases decodeString_congr same start with ⟨final, finalEq, here⟩
  have ends : buffer.offset + 1 + body.length = buffer.offset + (body.length + 1) := by omega
  have fuelEq : buffer.offset + (body.length + 1) - buffer.offset = body.length + 1 := by omega
  unfold parseStringBytes parseStringWith
  dsimp only [ParseState.buffer, ParseState.withBuffer, ParseState.requested, ParseState.deallocate]
  rw [read_head bytes, Except.ok_bind, if_neg (by decide), closing, Except.ok_bind]
  simp only [granted_eq succeeds, requested_eq succeeds, ends, fuelEq]
  rw [if_neg (by decide), here, Except.ok_bind]
  simp only
  rw [if_neg (by omega), ParseBuffer.seek, if_pos (by omega), Except.ok_bind, quoted_length]
  rfl

/-! ## Number tokens -/

/-- A text that `parse_number` accepts as a whole, and its value. -/
structure NumberToken (library : CLibrary) (token : Bytes) (number : Binary64) : Prop where
  bytes : ∀ byte ∈ token, isNumberByte byte = true
  some : token ≠ []
  value : library.strtod (numberCString library token) = (number, token.length)

/-- The text behind a number token must not continue the run. -/
def EndsNumber (rest : Bytes) : Prop := ∀ byte, rest.head? = some byte -> isNumberByte byte = false

theorem numberRun_eq {buffer : ParseBuffer} (valid : buffer.Valid) {count size : Nat}
    (enough : buffer.remaining.length ≤ count + size) :
    numberRun buffer count size =
      .ok (size + ((buffer.remaining.drop size).takeWhile isNumberByte).length) := by
  induction count generalizing size with
  | zero =>
      have empty : buffer.remaining.drop size = [] := List.drop_eq_nil_of_le (by omega)
      rw [numberRun, empty]
      rfl
  | succ count hypothesis =>
      rw [numberRun, valid.canAccess_eq]
      cases bytes : buffer.remaining.drop size with
      | nil =>
          have ended : buffer.remaining.length ≤ size := List.drop_eq_nil_iff.mp bytes
          rw [if_pos (by simpa using ended)]
          rfl
      | cons byte rest =>
          have split := getElem?_of_drop bytes
          have inside : size < buffer.remaining.length := by
            rcases List.getElem?_eq_some_iff.mp split.1 with ⟨inside, _⟩
            exact inside
          rw [if_neg (by simpa using inside), read_eq split.1, Except.ok_bind, List.takeWhile_cons]
          by_cases continues : isNumberByte byte = true
          · rw [if_pos continues, if_pos continues, hypothesis (by omega), split.2, List.length_cons]
            congr 1
            omega
          · rw [if_neg continues, if_neg continues]
            rfl

/-- The run of a buffer that continues a token by other bytes. -/
theorem takeWhile_token {token rest : Bytes} (bytes : ∀ byte ∈ token, isNumberByte byte = true)
    (ends : EndsNumber rest) : (token ++ rest).takeWhile isNumberByte = token := by
  rw [List.takeWhile_append_of_pos bytes]
  cases rest with
  | nil => simp
  | cons byte rest =>
      rw [List.takeWhile_cons, if_neg (by rw [ends byte rfl]; decide), List.append_nil]

theorem parseNumber_complete {library : CLibrary} {buffer : ParseBuffer} {token rest : Bytes}
    {number : Binary64} (item : Item) (valid : buffer.Valid)
    (succeeds : buffer.hooks.AlwaysSucceed) (split : buffer.remaining = token ++ rest)
    (accepted : NumberToken library token number) (ends : EndsNumber rest) :
    parseNumber library item buffer = .ok (some (setNumber item number), buffer.skip token.length) := by
  have total := valid.remaining_length
  have size := congrArg List.length split
  rw [List.length_append] at size
  have run := @numberRun_eq buffer valid (buffer.length - buffer.offset) 0 (by omega)
  rw [List.drop_zero, split, takeWhile_token accepted.bytes ends, Nat.zero_add] at run
  have nonempty := List.length_pos_of_ne_nil accepted.some
  unfold parseNumber
  dsimp only [ParseState.buffer, ParseState.withBuffer, ParseState.requested, ParseState.deallocate]
  rw [run, Except.ok_bind]
  simp only [granted_eq succeeds, requested_eq succeeds]
  rw [if_neg (by decide), valid.readSlice_eq (by omega), Except.ok_bind, split, List.take_left,
    accepted.value]
  rw [if_neg (by omega), valid.advance_eq (by omega)]
  rfl

theorem endsNumber_dropWhile (bytes : Bytes) : EndsNumber (bytes.dropWhile isNumberByte) := by
  intro byte first
  have stopped := List.head?_dropWhile_not isNumberByte bytes
  rw [first] at stopped
  simpa using stopped

/-- A number is read up to where `strtod` stops.  If the text behind it does
not go on like a number, `strtod` has used the whole run. -/
theorem parseNumber_sound {library : CLibrary} (consumes : library.ConsumesAtMost)
    {buffer after : ParseBuffer} {item result : Item} (valid : buffer.Valid)
    (parsed : parseNumber library item buffer = .ok (some result, after)) :
    ∃ token rest number, buffer.remaining = token ++ rest ∧ token ≠ [] ∧
      result = setNumber item number ∧ buffer.Moved token.length after ∧
      (EndsNumber rest -> NumberToken library token number) := by
  have total := valid.remaining_length
  have run := @numberRun_eq buffer valid (buffer.length - buffer.offset) 0 (by omega)
  rw [List.drop_zero, Nat.zero_add] at run
  have whole := @List.takeWhile_append_dropWhile _ isNumberByte buffer.remaining
  have bytes : ∀ byte ∈ buffer.remaining.takeWhile isNumberByte, isNumberByte byte = true :=
    fun byte inside => List.mem_takeWhile_imp inside
  have stops := endsNumber_dropWhile buffer.remaining
  generalize buffer.remaining.takeWhile isNumberByte = slice at run whole bytes
  generalize buffer.remaining.dropWhile isNumberByte = behind at whole stops
  have size := congrArg List.length whole
  rw [List.length_append] at size
  unfold parseNumber at parsed
  dsimp only [ParseState.buffer, ParseState.withBuffer, ParseState.requested, ParseState.deallocate] at parsed
  rw [run, Except.ok_bind] at parsed
  by_cases refused : (!buffer.granted (slice.length + 1)) = true
  · rw [if_pos refused] at parsed
    cases parsed
  rw [if_neg refused] at parsed
  have copied : readSlice (buffer.requested (slice.length + 1))
      (buffer.requested (slice.length + 1)).offset slice.length = .ok slice := by
    have direct := valid.readSlice_eq (show slice.length ≤ buffer.remaining.length by omega)
    rw [← whole, List.take_left] at direct
    exact direct
  have most := consumes (numberCString library slice)
  rw [numberCString, List.length_map] at most
  rw [copied, Except.ok_bind] at parsed
  rcases converted : library.strtod (numberCString library slice) with ⟨number, consumed⟩
  rw [converted] at parsed
  rw [numberCString] at converted
  rw [converted] at most
  dsimp only at parsed most
  by_cases nothing : consumed = 0
  · rw [if_pos nothing] at parsed
    cases parsed
  rw [if_neg nothing] at parsed
  have inside : consumed ≤ (buffer.requested (slice.length + 1)).remaining.length := by
    have same : (buffer.requested (slice.length + 1)).remaining = buffer.remaining := rfl
    rw [same]
    omega
  rw [(valid.requested _).advance_eq inside, Except.ok_bind] at parsed
  cases parsed
  refine ⟨slice.take consumed, slice.drop consumed ++ behind, number, ?_, ?_, rfl, ?_, ?_⟩
  · rw [← List.append_assoc, List.take_append_drop, whole]
  · intro empty
    have lengths := congrArg List.length empty
    rw [List.length_take, List.length_nil] at lengths
    omega
  · rw [List.length_take, Nat.min_eq_left most]
    exact ⟨rfl, rfl, rfl, rfl⟩
  · intro ends
    -- a byte of the run behind the token would continue the number
    have all : slice.drop consumed = [] := by
      cases left : slice.drop consumed with
      | nil => rfl
      | cons byte rest =>
          have continues := bytes byte (List.mem_of_mem_drop (by rw [left]; exact List.mem_cons_self))
          rw [left] at ends
          rw [ends byte rfl] at continues
          cases continues
    have used : consumed = slice.length := by
      have short := List.drop_eq_nil_iff.mp all
      omega
    subst used
    rw [List.take_length]
    exact ⟨bytes, fun empty => nothing (by rw [empty]; rfl), converted⟩

end CJson
