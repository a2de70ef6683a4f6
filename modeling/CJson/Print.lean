import CJson.Parse
import CJson.Library.Decimal

/-!
# The printer

`print.rs` writes into a buffer that `ensure` enlarges.  Every step asks for
the bytes it needs and then stores them behind `offset`; a value leaves its text
behind `offset` with a NUL at the end, and it is `update_offset`, scanning for
that NUL, that moves on.  A step returns whether it has succeeded, together with
the buffer.  Stores and scans outside the block are faults of the model.

The functions of the printer touch the buffer in a few ways only.  They are
written as programs over these operations, once, and `run` says what a program
does; which calls of `ensure` it makes can be read off the same program.
-/

namespace CJson

open CString

/-- `i32::MAX`. -/
def intMax : Nat := 2 ^ 31 - 1

/-- `PrintBuffer`.  The block may be gone, after a request for a larger one has been
refused; `length` is what the printer takes for its size. -/
structure PrintBuffer where
  buffer : Option Block
  length : Nat
  offset : Nat
  depth : Nat
  noalloc : Bool
  format : Bool
  allocator : Allocator

/-- What a step of the printer returns: whether it has printed, and the buffer then. -/
abbrev Printing := Except Fault (Bool × PrintBuffer)

namespace PrintBuffer

/-- Store bytes behind the pointer that the last `ensure` has returned.  A store
outside of the block is a fault of the model. -/
def write (p : PrintBuffer) (index : Nat) (bytes : Bytes) : Except Fault PrintBuffer :=
  match p.buffer with
  | none => .error .outOfBounds
  | some block =>
      match block.write (p.offset + index) bytes with
      | none => .error .outOfBounds
      | some block => .ok { p with buffer := some block }

/-- `offset += count`. -/
def advance (p : PrintBuffer) (count : Nat) : PrintBuffer :=
  { p with offset := p.offset + count }

/-- The buffer after a failed request for a larger block: the old one is given back
and forgotten. -/
def release (p : PrintBuffer) (allocator : Allocator) : PrintBuffer :=
  { p with
    allocator := allocator.deallocate p.buffer
    length := 0
    buffer := none }

/-- The size of the block that `ensure` asks for: twice what is needed, or all that an
int can say. -/
def newSize (needed : Nat) : Option Nat :=
  if intMax / 2 < needed then
    -- overflow of int, use INT_MAX if possible
    if needed ≤ intMax then some intMax else none
  else some (needed * 2)

/-- The second half of `ensure`: move to a block of `newsize` bytes.  Without a hook
for reallocation it is a new block and a copy of the text so far, which has its
terminator with it. -/
def grow (p : PrintBuffer) (block : Block) (newsize : Nat) : Printing :=
  if p.allocator.hooks.hasReallocate then
    match p.allocator.reallocate block newsize with
    | (none, allocator) => .ok (false, p.release allocator)
    | (some newbuffer, allocator) =>
        .ok (true, { p with allocator := allocator, length := newsize, buffer := some newbuffer })
  else
    match p.allocator.allocate newsize with
    | (none, allocator) => .ok (false, p.release allocator)
    | (some newbuffer, allocator) =>
        -- the copy of `offset + 1` bytes
        if block.bytes.length < p.offset + 1 then .error .outOfBounds
        else
          match newbuffer.write 0 (block.bytes.take (p.offset + 1)) with
          | none => .error .outOfBounds
          | some newbuffer =>
              .ok (true, { p with
                allocator := allocator.deallocate (some block)
                length := newsize
                buffer := some newbuffer })

/-- `ensure`: room for `needed` bytes behind the cursor and one more.  It fails on a
cursor behind the end, on more than an int can say, and where the block must not move. -/
def ensure (p : PrintBuffer) (needed : Nat) : Printing :=
  match p.buffer with
  | none => .ok (false, p)
  | some block =>
      if 0 < p.length ∧ p.length ≤ p.offset then .ok (false, p)
      else if intMax < needed then .ok (false, p)
      else if needed + p.offset + 1 ≤ p.length then .ok (true, p)
      else if p.noalloc then .ok (false, p)
      else
        match newSize (needed + p.offset + 1) with
        | none => .ok (false, p)
        | some newsize => p.grow block newsize

/-- `update_offset`: the cursor moves to the terminator of what has been printed.
Without a terminator the search leaves the block, which is a fault of the model. -/
def updateOffset (p : PrintBuffer) : Except Fault PrintBuffer :=
  match p.buffer with
  | none => .ok p
  | some block =>
      let bytes := block.bytes.drop p.offset
      if 0 ∈ bytes then .ok (p.advance (text bytes).length) else .error .outOfBounds

end PrintBuffer

open PrintBuffer

/-- Go on unless the step has failed: `if step == 0 { return 0; }`. -/
def orFail (step : Printing) (next : PrintBuffer -> Printing) : Printing := do
  let (printed, p) ← step
  if printed then next p else .ok (false, p)

/-- Reserve room, store bytes at once, and move `count` bytes on.  What is stored and
not passed over is a terminator, or what `update_offset` will pass. -/
def store (p : PrintBuffer) (needed : Nat) (bytes : Bytes) (count : Nat) : Printing :=
  orFail (p.ensure needed) fun p => do
    let p ← p.write 0 bytes
    .ok (true, p.advance count)

/-- A program over the print buffer.  Whatever tree is printed, it is made of these
operations: one reading of it is what it does to the buffer, another the calls of
`ensure` on the way.  `store` moves `offset` by no more than it has reserved. -/
inductive PrintProgram where
  | stop (printed : Bool)
  | ensure (needed : Nat)
  | write (index : Nat) (bytes : Bytes)
  | updateOffset
  | store (needed : Nat) (bytes : Bytes) (count : Nat) (reserved : count ≤ needed)
  | nest (change : Nat -> Nat)
  | andThen (first second : PrintProgram)
  | reads (program : Bool -> Nat -> PrintProgram)

namespace PrintProgram

/-- What a program does.  `andThen` goes on unless the first part has failed, and
`reads` looks up `format` and `depth`. -/
def run : PrintProgram -> PrintBuffer -> Printing
  | .stop printed, p => .ok (printed, p)
  | .ensure needed, p => p.ensure needed
  | .write index bytes, p => do
      let p ← p.write index bytes
      .ok (true, p)
  | .updateOffset, p => do
      let p ← p.updateOffset
      .ok (true, p)
  | .store needed bytes count _, p => CJson.store p needed bytes count
  | .nest change, p => .ok (true, { p with depth := change p.depth })
  | .andThen first second, p => orFail (first.run p) second.run
  | .reads program, p => (program p.format p.depth).run p

theorem orFail_bind (step : Except Fault PrintBuffer) (next : PrintBuffer -> Printing) :
    orFail (do
      let p ← step
      .ok (true, p)) next = step >>= next := by
  cases step with
  | error fault => rfl
  | ok p => rfl

theorem run_writeThen (index : Nat) (bytes : Bytes) (next : PrintProgram) (p : PrintBuffer) :
    (andThen (.write index bytes) next).run p = p.write index bytes >>= next.run :=
  orFail_bind (p.write index bytes) next.run

theorem run_updateThen (next : PrintProgram) (p : PrintBuffer) :
    (andThen .updateOffset next).run p = p.updateOffset >>= next.run :=
  orFail_bind p.updateOffset next.run

end PrintProgram

/-! ## Numbers -/

/-- `compare_double`: equal up to the precision of a double, relative to the larger of
the two. -/
def compareDouble (a b : Binary64) : Bool :=
  let maxVal := if b.abs.lt a.abs then a.abs else b.abs
  (a.sub b).abs.le (maxVal.scale (2 ^ (-52 : Int)))

/-- `format_number_g`, `none` if the text does not fit into the 26 bytes there are. -/
def formatNumberG (library : CLibrary) (d : Binary64) (precision : Nat) : Option Bytes :=
  let printed := library.formatG precision d
  if 26 ≤ printed.length then none else some printed

/-- Whether `strtod` recovers a number from its text, up to `compare_double`. -/
def recovers (library : CLibrary) (d : Binary64) (printed : Bytes) : Bool :=
  let test := library.strtod printed
  test.2 != 0 && compareDouble test.1 d

/-- The number buffer of `print_number`, up to its length.  What is no finite number
is `null`; an integer is printed as one; otherwise 15 digits are tried, and 17 if they
do not recover the number. -/
def numberBuffer (library : CLibrary) (fields : Fields) : Option Bytes :=
  match fields.valuedouble with
  | .nan => some [0x6E, 0x75, 0x6C, 0x6C]
  | .infinite _ => some [0x6E, 0x75, 0x6C, 0x6C]
  | .finite value =>
      if Binary64.finite value = .ofInt fields.valueint then some (decimalText fields.valueint)
      else
        match formatNumberG library fields.valuedouble 15 with
        | some printed =>
            if recovers library fields.valuedouble printed then some printed
            else formatNumberG library fields.valuedouble 17
        | none => formatNumberG library fields.valuedouble 17

/-- The copy of the number, with `.` for the locale's decimal point. -/
def numberText (library : CLibrary) (printed : Bytes) : Bytes :=
  printed.map (fun byte => if byte = library.decimalPoint then 0x2E else byte)

/-- `print_number`: the text is built aside and copied with a dot for the decimal
point. -/
def printNumber (library : CLibrary) (fields : Fields) : PrintProgram :=
  match numberBuffer library fields with
  | none => .stop false
  | some printed =>
      if 25 < printed.length then .stop false
      else .store (printed.length + 1) (numberText library printed ++ [0]) printed.length (Nat.le_succ _)

/-! ## Strings -/

/-- The bytes that an escape sequence takes beside the one it stands for: one for the
short escapes, five for those with four digits. -/
def escapeCharacters (byte : UInt8) : Nat :=
  if byte = 0x22 ∨ byte = 0x5C ∨ byte = 8 ∨ byte = 12 ∨ byte = 10 ∨ byte = 13 ∨ byte = 9 then 1
  else if byte < 32 then 5
  else 0

/-- The lower-case digit of a number below 16. -/
def hexByte (digit : Nat) : UInt8 :=
  if digit < 10 then UInt8.ofNat (48 + digit) else UInt8.ofNat (87 + digit)

/-- `format!("u{:04x}", byte)`. -/
def unicodeEscape (byte : UInt8) : Bytes :=
  [0x75, 48, 48, hexByte (byte.toNat / 16), hexByte (byte.toNat % 16)]

/-- What the second loop of `print_string_ptr` writes for a byte.  Bytes above 31 are
copied, so that what is no ASCII stays UTF-8. -/
def escapeByte (byte : UInt8) : Bytes :=
  if 31 < byte ∧ byte ≠ 0x22 ∧ byte ≠ 0x5C then [byte]
  else if byte = 0x5C then [0x5C, 0x5C]
  else if byte = 0x22 then [0x5C, 0x22]
  else if byte = 8 then [0x5C, 0x62]
  else if byte = 12 then [0x5C, 0x66]
  else if byte = 10 then [0x5C, 0x6E]
  else if byte = 13 then [0x5C, 0x72]
  else if byte = 9 then [0x5C, 0x74]
  else 0x5C :: unicodeEscape byte

/-- `print_string_ptr`, for a string pointer that may be NULL: the room is computed
first, and a string without escapes is copied at once.  The cursor stays where it is. -/
def printStringPtr : Option Bytes -> PrintProgram
  | none => .store 3 [0x22, 0x22, 0] 0 (Nat.zero_le _)
  | some block =>
      let input := text block
      let escapes := (input.map escapeCharacters).sum
      let outputLength := input.length + escapes
      .andThen (.ensure (outputLength + 3)) <|
      .andThen (.write 0 [0x22]) <|
      .andThen (.write 1 (if escapes = 0 then input else input.flatMap escapeByte)) <|
      .andThen (.write (outputLength + 1) [0x22, 0]) (.stop true)

/-- `print_string`: the string value, NULL or not. -/
def printString (fields : Fields) : PrintProgram := printStringPtr fields.valuestring

/-! ## Containers -/

/-- `print_array` around the loop over the children.  The depth is counted before the
children and given back behind the closing bracket. -/
def printArray (loop : PrintProgram) : PrintProgram :=
  .reads fun _ depth =>
    if nestingLimit ≤ depth then .stop false
    else
      .andThen (.store 1 [0x5B] 1 (le_refl _)) <|
      .andThen (.nest (· + 1)) <|
      .andThen loop <|
      .andThen (.store 2 [0x5D, 0] 0 (Nat.zero_le _)) (.nest (· - 1))

/-- Between two elements: a comma, and a blank if the output is formatted. -/
def printArraySeparator : PrintProgram :=
  .reads fun format _ =>
    let separator : Bytes := if format then [0x2C, 0x20] else [0x2C]
    .store (separator.length + 1) (separator ++ [0]) separator.length (Nat.le_succ _)

/-- `print_object` around the loop over the children.  Formatted, a line ends behind
the opening brace, and the closing one is indented by the depth of the object itself. -/
def printObject (loop : PrintProgram) : PrintProgram :=
  .reads fun format depth =>
    if nestingLimit ≤ depth then .stop false
    else
      let opening : Bytes := if format then [0x7B, 0x0A] else [0x7B]
      .andThen (.store (opening.length + 1) opening opening.length (Nat.le_succ _)) <|
      .andThen (.nest (· + 1)) <|
      .andThen loop <|
      .andThen (.reads fun format depth => .store (if format then depth + 1 else 2)
        ((if format then List.replicate (depth - 1) 0x09 else []) ++ [0x7D, 0]) 0 (Nat.zero_le _)) <|
      .nest (· - 1)

/-- The name of a member, with the tabs in front and the colon behind.  A name that is
NULL is printed as an empty string. -/
def printName (name : Option Bytes) : PrintProgram :=
  .andThen (.reads fun format depth =>
    if format then .store depth (List.replicate depth 0x09) depth (le_refl _) else .stop true) <|
  .andThen (printStringPtr name) <|
  .andThen .updateOffset <|
  .reads fun format _ =>
    let colon : Bytes := if format then [0x3A, 0x09] else [0x3A]
    .store colon.length colon colon.length (le_refl _)

/-- What follows a member: a comma unless it is the last one, and the end of the line
if the output is formatted. -/
def printObjectSeparator (isLast : Bool) : PrintProgram :=
  .reads fun format _ =>
    let separator : Bytes := (if isLast then [] else [0x2C]) ++ (if format then [0x0A] else [])
    .store (separator.length + 1) (separator ++ [0]) separator.length (Nat.le_succ _)

mutual

/-- `print_value`.  A raw node is copied as it is, and fails if there is nothing to
copy; a node of no known type fails. -/
def printValue (library : CLibrary) : Item -> PrintProgram
  | .mk fields child _ =>
      match fields.type_.base with
      | .null => .store 5 [0x6E, 0x75, 0x6C, 0x6C, 0] 0 (Nat.zero_le _)
      | .false => .store 6 [0x66, 0x61, 0x6C, 0x73, 0x65, 0] 0 (Nat.zero_le _)
      | .true => .store 5 [0x74, 0x72, 0x75, 0x65, 0] 0 (Nat.zero_le _)
      | .number => printNumber library fields
      | .raw =>
          match fields.valuestring with
          | none => .stop false
          | some block => .store ((text block).length + 1) (text block ++ [0]) 0 (Nat.zero_le _)
      | .string => printString fields
      | .array => printArray (printArrayLoop library child)
      | .object => printObject (printObjectLoop library child)
      | .invalid => .stop false

/-- The loop of `print_array`: an element, the cursor behind it, and a separator
before the next. -/
def printArrayLoop (library : CLibrary) : List Item -> PrintProgram
  | [] => .stop true
  | currentElement :: rest =>
      .andThen (printValue library currentElement) <|
      .andThen .updateOffset <|
      .andThen (if rest.isEmpty then .stop true else printArraySeparator) <|
      printArrayLoop library rest

/-- The loop of `print_object`: the name, the value, the cursor behind both, and what
follows. -/
def printObjectLoop (library : CLibrary) : List Item -> PrintProgram
  | [] => .stop true
  | currentItem :: rest =>
      .andThen (printName currentItem.string) <|
      .andThen (printValue library currentItem) <|
      .andThen .updateOffset <|
      .andThen (printObjectSeparator rest.isEmpty) <|
      printObjectLoop library rest

end

/-! ## Entry points -/

/-- The size of the first block of `print_impl`, before anything is known of the text. -/
def defaultBufferSize : Nat := 256

/-- The end of `print_impl`: the text in a block of its own size.  If there is none,
the printed text is lost with its block. -/
def shrink (p : PrintBuffer) : Except Fault (Option Block × Allocator) :=
  match p.buffer with
  | none => .error .outOfBounds
  | some block =>
      if p.allocator.hooks.hasReallocate then
        match p.allocator.reallocate block (p.offset + 1) with
        | (none, allocator) => .ok (none, allocator.deallocate (some block))
        | (some printed, allocator) => .ok (some printed, allocator)
      else
        match p.allocator.allocate (p.offset + 1) with
        | (none, allocator) => .ok (none, allocator.deallocate (some block))
        | (some printed, allocator) =>
            let size := min p.length (p.offset + 1)
            if block.bytes.length < size then .error .outOfBounds
            else
              match printed.write 0 (block.bytes.take size) with
              | none => .error .outOfBounds
              | some printed =>
                  match printed.write p.offset [0] with
                  | none => .error .outOfBounds
                  | some printed => .ok (some printed, allocator.deallocate (some block))

/-- `print_impl`: the block it returns, `none` for NULL.  The failure path hands the
buffer to the hook without a test, also when it is NULL. -/
def printImpl (library : CLibrary) (item : Item) (format : Bool) (allocator : Allocator) :
    Except Fault (Option Block × Allocator) :=
  match allocator.allocate defaultBufferSize with
  | (none, allocator) => .ok (none, allocator)
  | (some block, allocator) => do
      let (printed, p) ← (printValue library item).run
        { buffer := some block, length := defaultBufferSize, offset := 0, depth := 0,
          noalloc := false, format := format, allocator := allocator }
      if printed then do
        let p ← p.updateOffset
        shrink p
      else .ok (none, p.allocator.deallocate p.buffer)

/-- `cjson_print`, formatted. -/
def cjsonPrint (library : CLibrary) (item : Item) (allocator : Allocator) :
    Except Fault (Option Block × Allocator) :=
  printImpl library item true allocator

/-- `cjson_print_unformatted`, without a blank between tokens. -/
def cjsonPrintUnformatted (library : CLibrary) (item : Item) (allocator : Allocator) :
    Except Fault (Option Block × Allocator) :=
  printImpl library item false allocator

/-- `cjson_print_buffered`: the first block has the size that the caller guesses, and
the block with the text is returned as it is. -/
def cjsonPrintBuffered (library : CLibrary) (item : Item) (prebuffer : Int) (format : Bool)
    (allocator : Allocator) : Except Fault (Option Block × Allocator) :=
  if prebuffer < 0 then .ok (none, allocator)
  else
    match allocator.allocate prebuffer.toNat with
    | (none, allocator) => .ok (none, allocator)
    | (some block, allocator) => do
        let (printed, p) ← (printValue library item).run
          { buffer := some block, length := prebuffer.toNat, offset := 0, depth := 0,
            noalloc := false, format := format, allocator := allocator }
        if printed then .ok (p.buffer, p.allocator)
        else
          -- `cjson_dealloc` tests the pointer first
          match p.buffer with
          | none => .ok (none, p.allocator)
          | some block => .ok (none, p.allocator.deallocate (some block))

/-- `cjson_print_preallocated`, with the memory behind `buffer`, of which the
first `length` bytes are the printer's block. -/
def cjsonPrintPreallocated (library : CLibrary) (item : Item) (buffer : Option Bytes) (length : Int)
    (format : Bool) (allocator : Allocator) : Except Fault (Bool × Option Bytes × Allocator) :=
  match buffer with
  | none => .ok (false, none, allocator)
  | some memory =>
      if length < 0 then .ok (false, some memory, allocator)
      else do
        let (printed, p) ← (printValue library item).run
          { buffer := some ⟨allocator.calls.length, memory.take length.toNat⟩,
            length := length.toNat, offset := 0, depth := 0, noalloc := true, format := format,
            allocator := allocator }
        .ok (printed, p.buffer.map (fun block => block.bytes ++ memory.drop length.toNat), p.allocator)

end CJson
