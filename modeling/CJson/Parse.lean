import CJson.Alloc
import CJson.Links

/-!
# The parser

`parse.rs` reads a buffer of `length` bytes through one cursor, `offset`.  The
cursor moves both ways: the whitespace skipper steps back when it has run to
the end of the buffer, and the container parsers step back before their first
element.  A read outside the buffer, a cursor that would leave `0 ..= length`,
and running out of the recursion budget are the three faults of this model.
None of them exists in the source; that the parser never runs into one is
proved, not assumed.

The functions that ask for memory are written over what they do with it, so that
the same text can be run on items and a buffer, and on nodes that know their blocks
and states that remember the calls of the hooks.

`strtod`, `snprintf` and the locale's decimal point belong to the C library and
are parameters.
-/

namespace CJson

open CString

/-- What the program uses of the C library.  Each function is a parameter, and what a
theorem assumes of it is a hypothesis there; the only thing that is assumed always is
that a formatted number is a C string. -/
structure CLibrary where
  /-- `get_decimal_point`. -/
  decimalPoint : UInt8
  /-- `strtod`: the value, and the number of bytes it has consumed. -/
  strtod : Bytes -> Binary64 × Nat
  /-- `snprintf` with the format `%1.<precision>g`, before it is cut to size. -/
  formatG : Nat -> Binary64 -> Bytes
  /-- A C string has no NUL inside. -/
  formatG_nulFree : ∀ precision number, (0 : UInt8) ∉ formatG precision number

/-- Ways in which the model stops that the source has no code for: a read outside of
the memory, a cursor that would leave the buffer, and a recursion whose budget is used
up. -/
inductive Fault where
  | outOfBounds
  | cursor
  | outOfFuel
  deriving DecidableEq, Repr

/-- `CJSON_NESTING_LIMIT`, for the parser and for the printer. -/
def nestingLimit : Nat := 1000

/-- `ParseBuffer`.  `content` is all the memory that there is, and `length` what the
caller says of it; the two need not agree. -/
structure ParseBuffer where
  content : Bytes
  length : Nat
  offset : Nat
  depth : Nat
  hooks : Hooks

namespace ParseBuffer

/-- Read the byte at an index of the buffer's memory. -/
def read (buffer : ParseBuffer) (index : Nat) : Except Fault UInt8 :=
  match buffer.content[index]? with
  | none => .error .outOfBounds
  | some byte => .ok byte

/-- Move the cursor. -/
def seek (buffer : ParseBuffer) (offset : Nat) : Except Fault ParseBuffer :=
  if offset ≤ buffer.length then .ok { buffer with offset := offset } else .error .cursor

/-- `offset += count`. -/
def advance (buffer : ParseBuffer) (count : Nat) : Except Fault ParseBuffer :=
  buffer.seek (buffer.offset + count)

/-- `offset -= 1`. -/
def retreat (buffer : ParseBuffer) : Except Fault ParseBuffer :=
  if buffer.offset = 0 then .error .cursor else buffer.seek (buffer.offset - 1)

/-- `can_read`. -/
def canRead (buffer : ParseBuffer) (size : Nat) : Bool :=
  buffer.offset + size ≤ buffer.length

/-- `can_access_at_index`. -/
def canAccessAtIndex (buffer : ParseBuffer) (index : Nat) : Bool :=
  buffer.offset + index < buffer.length

/-- `can_access_at_index(buf, 0) && *buffer_at_offset(buf) == byte`. -/
def guardedByte (buffer : ParseBuffer) (byte : UInt8) : Except Fault Bool :=
  if buffer.canAccessAtIndex 0 then do
    let found ← buffer.read buffer.offset
    .ok (found == byte)
  else .ok false

/-- Whether a call of `allocate` through the buffer's hooks gets a block. -/
def granted (buffer : ParseBuffer) (size : Nat) : Bool := (buffer.hooks.request size).1

/-- The buffer after such a call. -/
def requested (buffer : ParseBuffer) (size : Nat) : ParseBuffer :=
  { buffer with hooks := (buffer.hooks.request size).2 }

end ParseBuffer

/-- The loop of `buffer_skip_whitespace`; `count` bytes are left in the buffer.  Every
byte up to 32 counts as whitespace, a NUL included. -/
def skipWhitespaceLoop : Nat -> ParseBuffer -> Except Fault ParseBuffer
  | 0, buffer => .ok buffer
  | count + 1, buffer =>
      if buffer.canAccessAtIndex 0 then do
        let byte ← buffer.read buffer.offset
        if byte ≤ 32 then
          let buffer ← buffer.advance 1
          skipWhitespaceLoop count buffer
        else .ok buffer
      else .ok buffer

/-- `buffer_skip_whitespace`.  A run that reaches the end of the buffer is left one
byte early, so that its last byte, blank as it is, is looked at next. -/
def bufferSkipWhitespace (buffer : ParseBuffer) : Except Fault ParseBuffer :=
  if !buffer.canAccessAtIndex 0 then .ok buffer
  else do
    let buffer ← skipWhitespaceLoop (buffer.length - buffer.offset) buffer
    if buffer.offset = buffer.length then buffer.retreat else .ok buffer

/-- The bytes at the cursor, for a comparison with a literal of `size` bytes.  The
comparison reads all of them. -/
def readSlice (buffer : ParseBuffer) (start size : Nat) : Except Fault Bytes :=
  if start + size ≤ buffer.content.length then .ok ((buffer.content.drop start).take size)
  else .error .outOfBounds

/-- The UTF-8 byte order mark. -/
def byteOrderMark : Bytes := [0xEF, 0xBB, 0xBF]

/-- `skip_utf8_bom`; NULL if the cursor has moved.  The mark is looked for only where
five bytes can be read. -/
def skipUtf8Bom (buffer : ParseBuffer) : Except Fault (Option ParseBuffer) :=
  if buffer.offset ≠ 0 then .ok none
  else if buffer.canAccessAtIndex 4 then do
    let mark ← readSlice buffer buffer.offset 3
    if mark = byteOrderMark then
      let buffer ← buffer.advance 3
      .ok (some buffer)
    else .ok (some buffer)
  else .ok (some buffer)

/-- `matches_at`: a text at the cursor, compared as one slice. -/
def matchesAt (buffer : ParseBuffer) (text : Bytes) : Except Fault Bool :=
  if buffer.length < buffer.offset + text.length then .ok false
  else do
    let slice ← readSlice buffer buffer.offset text.length
    .ok (slice == text)

/-- `can_read(buf, size) && matches_at(buf, text)`. -/
def canMatch (buffer : ParseBuffer) (size : Nat) (text : Bytes) : Except Fault Bool :=
  if buffer.canRead size then matchesAt buffer text else .ok false

/-! ## Strings -/

/-- The value of a hexadecimal digit, in either case of letters. -/
def hexDigit (byte : UInt8) : Option Nat :=
  if 48 ≤ byte ∧ byte ≤ 57 then some (byte.toNat - 48)
  else if 65 ≤ byte ∧ byte ≤ 70 then some (10 + (byte.toNat - 65))
  else if 97 ≤ byte ∧ byte ≤ 102 then some (10 + (byte.toNat - 97))
  else none

/-- The loop of `parse_hex4`, with `count` digits still to read.  An invalid
digit ends it with 0. -/
def parseHexLoop (buffer : ParseBuffer) : Nat -> Nat -> Nat -> Except Fault Nat
  | 0, _, h => .ok h
  | count + 1, input, h => do
      let byte ← buffer.read input
      match hexDigit byte with
      | none => .ok 0
      | some digit =>
          let h := h + digit
          parseHexLoop buffer count (input + 1) (if count = 0 then h else h <<< 4)

/-- `parse_hex4`: the number that four digits are, 0 if one of them is no digit.  The
caller cannot tell this from four zeros. -/
def parseHex4 (buffer : ParseBuffer) (input : Nat) : Except Fault Nat :=
  parseHexLoop buffer 4 input 0

/-- The continuation bytes that the loop of `utf16_literal_to_utf8` writes from
the last one to the first, and what is left of the code point. -/
def continuationBytes : Nat -> Nat -> Bytes -> Nat × Bytes
  | 0, codepoint, written => (codepoint, written)
  | position + 1, codepoint, written =>
      continuationBytes position (codepoint >>> 6)
        (((UInt8.ofNat codepoint ||| 0x80) &&& 0xBF) :: written)

/-- The UTF-8 bytes of a code point, `none` above `0x10FFFF`.  The length is chosen by
the size of the number alone. -/
def encodeCodepoint (codepoint : Nat) : Option Bytes :=
  let encode := fun (utf8Length : Nat) (firstByteMark : UInt8) =>
    match continuationBytes (utf8Length - 1) codepoint [] with
    | (rest, written) =>
        if 1 < utf8Length then ((UInt8.ofNat rest ||| firstByteMark) &&& 0xFF) :: written
        else [UInt8.ofNat rest &&& 0x7F]
  if codepoint < 0x80 then some (encode 1 0)
  else if codepoint < 0x800 then some (encode 2 0xC0)
  else if codepoint < 0x10000 then some (encode 3 0xE0)
  else if codepoint ≤ 0x10FFFF then some (encode 4 0xF0)
  else none

/-- The code point an escape stands for and the length of the escape, `none` on
failure: the first half of `utf16_literal_to_utf8`.  A high surrogate needs a low one
in the escape behind it, and a low one does not come first. -/
def utf16Codepoint (buffer : ParseBuffer) (inputPointer inputEnd : Nat) :
    Except Fault (Option (Nat × Nat)) :=
  if inputEnd - inputPointer < 6 then .ok none
  else do
    let firstCode ← parseHex4 buffer (inputPointer + 2)
    if 0xDC00 ≤ firstCode ∧ firstCode ≤ 0xDFFF then .ok none
    else if 0xD800 ≤ firstCode ∧ firstCode ≤ 0xDBFF then
      let secondSequence := inputPointer + 6
      if inputEnd - secondSequence < 6 then .ok none
      else do
        let backslash ← buffer.read secondSequence
        if backslash ≠ 0x5C then .ok none
        else do
          let letter ← buffer.read (secondSequence + 1)
          if letter ≠ 0x75 then .ok none
          else do
            let secondCode ← parseHex4 buffer (secondSequence + 2)
            if ¬ (0xDC00 ≤ secondCode ∧ secondCode ≤ 0xDFFF) then .ok none
            else
              .ok (some ((0x10000 + ((firstCode &&& 0x3FF) <<< 10)) ||| (secondCode &&& 0x3FF), 12))
    else .ok (some (firstCode, 6))

/-- `utf16_literal_to_utf8`: the length of the escape, 0 on failure, and the
bytes written. -/
def utf16LiteralToUtf8 (buffer : ParseBuffer) (inputPointer inputEnd : Nat) :
    Except Fault (Nat × Bytes) := do
  match ← utf16Codepoint buffer inputPointer inputEnd with
  | none => .ok (0, [])
  | some (codepoint, sequenceLength) =>
      match encodeCodepoint codepoint with
      | none => .ok (0, [])
      | some bytes => .ok (sequenceLength, bytes)

/-- The first pass of `parse_string`: the index of the closing quote and the number of
backslashes passed over, `none` if the buffer ends first.  The byte behind a backslash
is skipped, whatever it is. -/
def findClosingQuote (buffer : ParseBuffer) : Nat -> Nat -> Nat -> Except Fault (Option (Nat × Nat))
  | 0, _, _ => .error .outOfFuel
  | fuel + 1, inputEnd, skippedBytes =>
      if buffer.length ≤ inputEnd then .ok none
      else do
        let byte ← buffer.read inputEnd
        if byte = 0x22 then .ok (some (inputEnd, skippedBytes))
        else if byte = 0x5C then
          if buffer.length ≤ inputEnd + 1 then .ok none
          else findClosingQuote buffer fuel (inputEnd + 2) (skippedBytes + 1)
        else findClosingQuote buffer fuel (inputEnd + 1) skippedBytes

/-- The byte a two-byte escape stands for.  `u` and everything that is no escape have
none. -/
def simpleEscape (byte : UInt8) : Option UInt8 :=
  if byte = 0x62 then some 8
  else if byte = 0x66 then some 12
  else if byte = 0x6E then some 10
  else if byte = 0x72 then some 13
  else if byte = 0x74 then some 9
  else if byte = 0x22 ∨ byte = 0x5C ∨ byte = 0x2F then some byte
  else none

/-- The second pass of `parse_string`: where it stops, and what it has written.  It
stops before `inputEnd` at an escape it cannot decode, and it may run past `inputEnd`
by the last escape. -/
def decodeString (buffer : ParseBuffer) (inputEnd : Nat) :
    Nat -> Nat -> Bytes -> Except Fault (Nat × Bytes)
  | 0, _, _ => .error .outOfFuel
  | fuel + 1, inputPointer, output =>
      if inputEnd ≤ inputPointer then .ok (inputPointer, output)
      else do
        let byte ← buffer.read inputPointer
        if byte ≠ 0x5C then decodeString buffer inputEnd fuel (inputPointer + 1) (output ++ [byte])
        else do
          let code ← buffer.read (inputPointer + 1)
          match simpleEscape code with
          | some decoded => decodeString buffer inputEnd fuel (inputPointer + 2) (output ++ [decoded])
          | none =>
              if code = 0x75 then do
                let (sequenceLength, bytes) ← utf16LiteralToUtf8 buffer inputPointer inputEnd
                if sequenceLength = 0 then .ok (inputPointer, output)
                else decodeString buffer inputEnd fuel (inputPointer + sequenceLength) (output ++ bytes)
              else .ok (inputPointer, output)

/-! ## Numbers -/

/-- The bytes of which `parse_number` copies a run: digits, signs, the two letters of
an exponent, and the dot. -/
def isNumberByte (byte : UInt8) : Bool :=
  (48 ≤ byte && byte ≤ 57) || byte == 0x2B || byte == 0x2D || byte == 0x65 || byte == 0x45 ||
    byte == 0x2E

/-- The length of the number run at the cursor; `count` bytes are left.  There is no
bound on the length but the end of the buffer. -/
def numberRun (buffer : ParseBuffer) : Nat -> Nat -> Except Fault Nat
  | 0, numberStringLength => .ok numberStringLength
  | count + 1, numberStringLength =>
      if !buffer.canAccessAtIndex numberStringLength then .ok numberStringLength
      else do
        let byte ← buffer.read (buffer.offset + numberStringLength)
        if isNumberByte byte then numberRun buffer count (numberStringLength + 1)
        else .ok numberStringLength

/-- The conversion to the integer field, which saturates at the bounds of a C int. -/
def saturate (number : Binary64) : Int :=
  if Binary64.le (.ofInt (2 ^ 31 - 1)) number then 2 ^ 31 - 1
  else if Binary64.le number (.ofInt (-2 ^ 31)) then -2 ^ 31
  else number.toInt (-2 ^ 31) (2 ^ 31 - 1)

theorem saturate_ofInt {value : Int} (lower : -2 ^ 31 ≤ value) (upper : value < 2 ^ 31) :
    saturate (.ofInt value) = value := by
  unfold saturate
  rw [Binary64.le_ofInt, Binary64.le_ofInt]
  by_cases top : (2 : Int) ^ 31 - 1 ≤ value
  · rw [if_pos (by simpa using top)]
    omega
  · by_cases bottom : value ≤ -2 ^ 31
    · rw [if_neg (by simpa using top), if_pos (by simpa using bottom)]
      omega
    · rw [if_neg (by simpa using top), if_neg (by simpa using bottom)]
      exact Binary64.toInt_ofInt lower (by omega)

/-- The copy of the number run, with the locale's decimal point for every dot. -/
def numberCString (library : CLibrary) (slice : Bytes) : Bytes :=
  slice.map (fun byte => if byte = 0x2E then library.decimalPoint else byte)

/-! ## What is stored -/

/-- A zeroed node, as `cJSON_New_Item` returns it. -/
def newItem : Item := .mk { type_ := { base := .invalid } } [] .null

/-- What `parse_string` stores in its item. -/
def setString (item : Item) (output : Bytes) : Item :=
  item.withFields { item.fields with type_ := { base := .string }, valuestring := some output }

/-- What `parse_number` stores in its item. -/
def setNumber (item : Item) (number : Binary64) : Item :=
  item.withFields { item.fields with
    type_ := { base := .number }, valuedouble := number, valueint := saturate number }

/-- A value without content: `null`, `false` or `true`. -/
def setLiteral (item : Item) (base : BaseType) (valueint : Int) : Item :=
  item.withFields { item.fields with type_ := { base := base }, valueint := valueint }

/-- The name of a member: `string` and `valuestring` swapped after
`parse_string`. -/
def swapName (item : Item) : Item :=
  item.withFields { item.fields with string := item.fields.valuestring, valuestring := none }

/-- The item after a container has been parsed into it: the children in order,
the first one's `prev` on the last. -/
def finishContainer (item : Item) (base : BaseType) (children : List Item) : Item :=
  .mk { item.fields with type_ := { base := base } } children
    (if children.isEmpty then .null else .at (children.length - 1))

/-! ## The parser and its memory -/

/-- What the parser does with a node.  A node may be an item alone or know the blocks that
it and its strings lie in; blocks have numbers, for those who ask. -/
class ParseNode (Node : Type) where
  /-- A zeroed node in a block, as `cjson_new_item` returns it. -/
  newItem : Nat -> Node
  /-- The integer field of a node. -/
  valueint : Node -> Int
  /-- What `parse_string` stores, with the block of the text. -/
  setString : Node -> Nat -> Bytes -> Node
  /-- What `parse_number` stores. -/
  setNumber : Node -> Binary64 -> Node
  /-- What `parse_value` stores for a value without content. -/
  setLiteral : Node -> BaseType -> Int -> Node
  /-- The swap of `string` and `valuestring` behind the name of a member. -/
  swapName : Node -> Node
  /-- What `parse_array` and `parse_object` store. -/
  finishContainer : Node -> BaseType -> List Node -> Node

/-- What the parser does with its state.  A state may be the buffer alone or remember the
calls of the hooks as well. -/
class ParseState (Node : outParam Type) (State : Type) where
  buffer : State -> ParseBuffer
  /-- The state with another buffer, after steps that ask for no memory. -/
  withBuffer : State -> ParseBuffer -> State
  /-- The block that the next request gets if it is granted. -/
  nextBlock : State -> Nat
  /-- The state behind a request of some size, granted or not. -/
  requested : State -> Nat -> State
  /-- The state behind `cjson_dealloc` of a block. -/
  deallocate : State -> Nat -> State
  /-- The state behind `cjson_delete` of a list. -/
  delete : List Node -> State -> State

/-- An item knows no blocks. -/
instance : ParseNode Item where
  newItem := fun _ => newItem
  valueint := fun item => item.fields.valueint
  setString := fun item _ output => setString item output
  setNumber := setNumber
  setLiteral := setLiteral
  swapName := swapName
  finishContainer := finishContainer

/-- The buffer remembers what is asked of the hooks, since it has them, but no blocks. -/
instance : ParseState Item ParseBuffer where
  buffer := fun buffer => buffer
  withBuffer := fun _ buffer => buffer
  nextBlock := fun _ => 0
  requested := ParseBuffer.requested
  deallocate := fun buffer _ => buffer
  delete := fun _ buffer => buffer

section Program

variable {Node State : Type} [ParseNode Node] [ParseState Node State]

/-- The failures of `parse_string` before its second pass.  The cursor is left behind
the place of the opening quote, whether there is one or not. -/
def failAfterQuote {α : Type} (s : State) (startOffset : Nat) : Except Fault (Option α × State) := do
  let buffer ← (ParseState.buffer s).seek (startOffset + 1)
  .ok (none, ParseState.withBuffer s buffer)

/-- `parse_string`, up to what is made of its output: the block, and the bytes written there
before the final NUL.  The block is given back when an escape cannot be decoded. -/
def parseStringWith {α : Type} (store : Nat -> Bytes -> α) (s : State) :
    Except Fault (Option α × State) := do
  let buffer := ParseState.buffer s
  let startOffset := buffer.offset
  let quote ← buffer.read startOffset
  if quote ≠ 0x22 then failAfterQuote s startOffset
  else do
    match ← findClosingQuote buffer (buffer.length + 1 - startOffset) (startOffset + 1) 0 with
    | none => failAfterQuote s startOffset
    | some (inputEnd, skippedBytes) =>
        let allocationLength := inputEnd - startOffset - skippedBytes
        if !buffer.granted (allocationLength + 1) then
          failAfterQuote (ParseState.requested s (allocationLength + 1)) startOffset
        else do
          let block := ParseState.nextBlock s
          let s := ParseState.requested s (allocationLength + 1)
          let (inputPointer, output) ←
            decodeString (ParseState.buffer s) inputEnd (inputEnd - startOffset) (startOffset + 1) []
          if inputPointer < inputEnd then do
            let s := ParseState.deallocate s block
            let buffer ← (ParseState.buffer s).seek inputPointer
            .ok (none, ParseState.withBuffer s buffer)
          else do
            let buffer ← (ParseState.buffer s).seek (inputEnd + 1)
            .ok (some (store block output), ParseState.withBuffer s buffer)

/-- `parse_string`: the item becomes a string with the bytes read, in a block of its
own. -/
def parseString (item : Node) (s : State) : Except Fault (Option Node × State) :=
  parseStringWith (ParseNode.setString item) s

/-- `parse_number`: the copy of the number is given back once it has been converted. -/
def parseNumber (library : CLibrary) (item : Node) (s : State) :
    Except Fault (Option Node × State) := do
  let buffer := ParseState.buffer s
  let numberStringLength ← numberRun buffer (buffer.length - buffer.offset) 0
  if !buffer.granted (numberStringLength + 1) then
    .ok (none, ParseState.requested s (numberStringLength + 1))
  else do
    let block := ParseState.nextBlock s
    let s := ParseState.requested s (numberStringLength + 1)
    let buffer := ParseState.buffer s
    let slice ← readSlice buffer buffer.offset numberStringLength
    let converted := library.strtod (numberCString library slice)
    if converted.2 = 0 then .ok (none, ParseState.deallocate s block)
    else do
      let buffer ← buffer.advance converted.2
      .ok (some (ParseNode.setNumber item converted.1), ParseState.deallocate (ParseState.withBuffer s buffer) block)

mutual

/-- `parse_value`: the three literals, then what the first byte announces.  `null` and
`false` keep the integer of the item, `true` sets it. -/
def parseValue (library : CLibrary) : Nat -> Node -> State -> Except Fault (Option Node × State)
  | 0, _, _ => .error .outOfFuel
  | fuel + 1, item, s => do
      let buffer := ParseState.buffer s
      if ← canMatch buffer 4 [0x6E, 0x75, 0x6C, 0x6C] then do
        let buffer ← buffer.advance 4
        .ok (some (ParseNode.setLiteral item .null (ParseNode.valueint item)), ParseState.withBuffer s buffer)
      else if ← canMatch buffer 5 [0x66, 0x61, 0x6C, 0x73, 0x65] then do
        let buffer ← buffer.advance 5
        .ok (some (ParseNode.setLiteral item .false (ParseNode.valueint item)), ParseState.withBuffer s buffer)
      else if ← canMatch buffer 4 [0x74, 0x72, 0x75, 0x65] then do
        let buffer ← buffer.advance 4
        .ok (some (ParseNode.setLiteral item .true 1), ParseState.withBuffer s buffer)
      else if !buffer.canAccessAtIndex 0 then .ok (none, s)
      else do
        let byte ← buffer.read buffer.offset
        if byte = 0x22 then parseString item s
        else if byte = 0x2D ∨ (48 ≤ byte ∧ byte ≤ 57) then parseNumber library item s
        else if byte = 0x5B then parseArray library fuel item s
        else if byte = 0x7B then parseObject library fuel item s
        else .ok (none, s)

/-- `parse_array`.  The depth is counted on the way in and given back only by a
success; the cursor steps back before the first element because the loop steps over a
byte first. -/
def parseArray (library : CLibrary) : Nat -> Node -> State -> Except Fault (Option Node × State)
  | 0, _, _ => .error .outOfFuel
  | fuel + 1, item, s =>
      let buffer := ParseState.buffer s
      if nestingLimit ≤ buffer.depth then .ok (none, s)
      else do
        let buffer := { buffer with depth := buffer.depth + 1 }
        let byte ← buffer.read buffer.offset
        if byte ≠ 0x5B then .ok (none, ParseState.withBuffer s buffer)
        else do
          let buffer ← buffer.advance 1
          let buffer ← bufferSkipWhitespace buffer
          if ← buffer.guardedByte 0x5D then do
            let buffer ← buffer.advance 1
            .ok (some (ParseNode.finishContainer item .array []),
              ParseState.withBuffer s { buffer with depth := buffer.depth - 1 })
          else if !buffer.canAccessAtIndex 0 then do
            let buffer ← buffer.retreat
            .ok (none, ParseState.withBuffer s buffer)
          else do
            let buffer ← buffer.retreat
            match ← parseArrayLoop library fuel [] (ParseState.withBuffer s buffer) with
            | (none, s) => .ok (none, s)
            | (some children, s) =>
                let buffer := ParseState.buffer s
                if ← buffer.guardedByte 0x5D then do
                  let buffer ← buffer.advance 1
                  .ok (some (ParseNode.finishContainer item .array children),
                    ParseState.withBuffer s { buffer with depth := buffer.depth - 1 })
                else .ok (none, ParseState.delete children s)

/-- The loop of `parse_array`: the elements from the cursor on.  Those before them, from
`head` on, are deleted together with the new one when the loop fails. -/
def parseArrayLoop (library : CLibrary) :
    Nat -> List Node -> State -> Except Fault (Option (List Node) × State)
  | 0, _, _ => .error .outOfFuel
  | fuel + 1, head, s =>
      if !(ParseState.buffer s).granted nodeSize then
        .ok (none, ParseState.delete head (ParseState.requested s nodeSize))
      else do
        let newItem := ParseNode.newItem (ParseState.nextBlock s)
        let s := ParseState.requested s nodeSize
        let buffer ← (ParseState.buffer s).advance 1
        let buffer ← bufferSkipWhitespace buffer
        match ← parseValue library fuel newItem (ParseState.withBuffer s buffer) with
        | (none, s) => .ok (none, ParseState.delete (head ++ [newItem]) s)
        | (some currentItem, s) => do
            let buffer ← bufferSkipWhitespace (ParseState.buffer s)
            if ← buffer.guardedByte 0x2C then do
              let (rest, s) ← parseArrayLoop library fuel (head ++ [currentItem]) (ParseState.withBuffer s buffer)
              .ok (rest.map (currentItem :: ·), s)
            else .ok (some [currentItem], ParseState.withBuffer s buffer)

/-- `parse_object`, as `parse_array` but for a guard in front of the first read. -/
def parseObject (library : CLibrary) : Nat -> Node -> State -> Except Fault (Option Node × State)
  | 0, _, _ => .error .outOfFuel
  | fuel + 1, item, s =>
      let buffer := ParseState.buffer s
      if nestingLimit ≤ buffer.depth then .ok (none, s)
      else do
        let buffer := { buffer with depth := buffer.depth + 1 }
        if !(← buffer.guardedByte 0x7B) then .ok (none, ParseState.withBuffer s buffer)
        else do
          let buffer ← buffer.advance 1
          let buffer ← bufferSkipWhitespace buffer
          if ← buffer.guardedByte 0x7D then do
            let buffer ← buffer.advance 1
            .ok (some (ParseNode.finishContainer item .object []),
              ParseState.withBuffer s { buffer with depth := buffer.depth - 1 })
          else if !buffer.canAccessAtIndex 0 then do
            let buffer ← buffer.retreat
            .ok (none, ParseState.withBuffer s buffer)
          else do
            let buffer ← buffer.retreat
            match ← parseObjectLoop library fuel [] (ParseState.withBuffer s buffer) with
            | (none, s) => .ok (none, s)
            | (some children, s) =>
                let buffer := ParseState.buffer s
                if ← buffer.guardedByte 0x7D then do
                  let buffer ← buffer.advance 1
                  .ok (some (ParseNode.finishContainer item .object children),
                    ParseState.withBuffer s { buffer with depth := buffer.depth - 1 })
                else .ok (none, ParseState.delete children s)

/-- The loop of `parse_object`: the members from the cursor on, `head` as for arrays.
The name is read into the new node and moved to its place before the value is read
into the same node. -/
def parseObjectLoop (library : CLibrary) :
    Nat -> List Node -> State -> Except Fault (Option (List Node) × State)
  | 0, _, _ => .error .outOfFuel
  | fuel + 1, head, s =>
      if !(ParseState.buffer s).granted nodeSize then
        .ok (none, ParseState.delete head (ParseState.requested s nodeSize))
      else
        let newItem := ParseNode.newItem (ParseState.nextBlock s)
        let s := ParseState.requested s nodeSize
        let buffer := ParseState.buffer s
        if !buffer.canAccessAtIndex 1 then .ok (none, ParseState.delete (head ++ [newItem]) s)
        else do
          let buffer ← buffer.advance 1
          let buffer ← bufferSkipWhitespace buffer
          match ← parseString newItem (ParseState.withBuffer s buffer) with
          | (none, s) => .ok (none, ParseState.delete (head ++ [newItem]) s)
          | (some named, s) => do
              let named := ParseNode.swapName named
              let buffer ← bufferSkipWhitespace (ParseState.buffer s)
              if !(← buffer.guardedByte 0x3A) then
                .ok (none, ParseState.delete (head ++ [named]) (ParseState.withBuffer s buffer))
              else do
                let buffer ← buffer.advance 1
                let buffer ← bufferSkipWhitespace buffer
                match ← parseValue library fuel named (ParseState.withBuffer s buffer) with
                | (none, s) => .ok (none, ParseState.delete (head ++ [named]) s)
                | (some currentItem, s) => do
                    let buffer ← bufferSkipWhitespace (ParseState.buffer s)
                    if ← buffer.guardedByte 0x2C then do
                      let (rest, s) ←
                        parseObjectLoop library fuel (head ++ [currentItem]) (ParseState.withBuffer s buffer)
                      .ok (rest.map (currentItem :: ·), s)
                    else .ok (some [currentItem], ParseState.withBuffer s buffer)

end

/-- Nested calls that a buffer of some length can need: three for a byte, and three at
its end. -/
def parseFuel (length : Nat) : Nat := 3 * length + 3

/-- `*buffer_at_offset(buffer) == 0`, behind its guard: the test for a terminator
behind the value. -/
def endsInNul (buffer : ParseBuffer) : Except Fault Bool :=
  if buffer.length ≤ buffer.offset then .ok false
  else do
    let byte ← buffer.read buffer.offset
    .ok (byte == 0)

/-- `cjson_parse_with_length_opts` from a state whose buffer is at its start: the tree, and
the state with the place where the text has ended or failed. -/
def parseDocument (library : CLibrary) (requireNullTerminated : Bool) (s : State) :
    Except Fault (Option Node × State) :=
  let length := (ParseState.buffer s).length
  if length = 0 then .ok (none, s)
  else if !(ParseState.buffer s).granted nodeSize then .ok (none, ParseState.requested s nodeSize)
  else do
    let item := ParseNode.newItem (ParseState.nextBlock s)
    let s := ParseState.requested s nodeSize
    match ← skipUtf8Bom (ParseState.buffer s) with
    | none => .ok (none, ParseState.delete [item] s)
    | some buffer => do
        let buffer ← bufferSkipWhitespace buffer
        match ← parseValue library (parseFuel length) item (ParseState.withBuffer s buffer) with
        | (none, s) => .ok (none, ParseState.delete [item] s)
        | (some item, s) =>
            if requireNullTerminated then do
              let buffer ← bufferSkipWhitespace (ParseState.buffer s)
              let s := ParseState.withBuffer s buffer
              if ← endsInNul buffer then .ok (some item, s) else .ok (none, ParseState.delete [item] s)
            else .ok (some item, s)

end Program

/-- `parse_string` up to the bytes written before the final NUL, `none` on failure. -/
def parseStringBytes (buffer : ParseBuffer) : Except Fault (Option Bytes × ParseBuffer) :=
  parseStringWith (fun _ output => output) buffer

/-! ## Entry points -/

/-- What a call of the parser leaves behind: the tree, and the two places that it
reports to its caller. -/
structure ParseOutcome where
  /-- The tree, `none` for NULL. -/
  item : Option Item
  /-- The index `*return_parse_end` points at. -/
  parseEnd : Nat
  /-- The position in the global error, `none` if there is none. -/
  errorPosition : Option Nat

/-- `finish_parse_failure`: the position is the cursor, or the last byte if the cursor
is at the end, or 0 in an empty buffer. -/
def finishParseFailure (buffer : ParseBuffer) : ParseOutcome :=
  let position :=
    if buffer.offset < buffer.length then buffer.offset
    else if 0 < buffer.length then buffer.length - 1
    else 0
  { item := none, parseEnd := position, errorPosition := some position }

/-- What the caller gets of a parse that has ended with this buffer: the tree and the
end of the text, or the place of the failure. -/
def outcomeOf : Option Item × ParseBuffer -> ParseOutcome
  | (none, buffer) => finishParseFailure buffer
  | (some item, buffer) => { item := some item, parseEnd := buffer.offset, errorPosition := none }

/-- `cjson_parse_with_length_opts` on memory that holds `content`.  The length is the
caller's word, and the cursor starts at the first byte. -/
def cjsonParseWithLengthOpts (library : CLibrary) (hooks : Hooks) (content : Bytes)
    (bufferLength : Nat) (requireNullTerminated : Bool) : Except Fault ParseOutcome := do
  let buffer : ParseBuffer := ⟨content, bufferLength, 0, 0, hooks⟩
  let result ← parseDocument library requireNullTerminated buffer
  .ok (outcomeOf result)

/-- `cjson_parse_with_opts` on a C string, whose terminator belongs to the buffer. -/
def cjsonParseWithOpts (library : CLibrary) (hooks : Hooks) (value : Bytes)
    (requireNullTerminated : Bool) : Except Fault ParseOutcome :=
  cjsonParseWithLengthOpts library hooks (text value ++ [0]) ((text value).length + 1)
    requireNullTerminated

/-- `cjson_parse`: the value may be followed by anything. -/
def cjsonParse (library : CLibrary) (hooks : Hooks) (value : Bytes) :
    Except Fault (Option Item) := do
  let outcome ← cjsonParseWithOpts library hooks value false
  .ok outcome.item

/-- `cjson_parse_with_length`: as `cjson_parse`, with a length for the terminator. -/
def cjsonParseWithLength (library : CLibrary) (hooks : Hooks) (value : Bytes)
    (bufferLength : Nat) : Except Fault (Option Item) := do
  let outcome ← cjsonParseWithLengthOpts library hooks value bufferLength false
  .ok outcome.item

end CJson
