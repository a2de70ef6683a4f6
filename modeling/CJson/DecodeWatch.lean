import CJson.ParseSafety

/-!
# The bytes that the second pass touches

The second pass of `parse_string` reads through `input_pointer` and writes through
`output_pointer`, and compares neither with the end of its block.  Here it is
followed with the index of every byte it reads in the buffer and with the offset
of every byte it writes in the block; a byte that one round reads twice is noted
once.  What it decodes is what the second pass of the parser decodes.
-/

namespace CJson

open CString ParseBuffer

/-- The bytes read so far, and the bytes written, as offsets.  The reads are offsets
in the input, the writes offsets in the block that is to hold the string. -/
structure Accesses where
  reads : List Nat
  writes : List Nat

namespace Accesses

def read (accesses : Accesses) (index : Nat) : Accesses :=
  { accesses with reads := accesses.reads ++ [index] }

def write (accesses : Accesses) (offset : Nat) : Accesses :=
  { accesses with writes := accesses.writes ++ [offset] }

/-- The writes of `utf16_literal_to_utf8`, the last byte first. -/
def fill (accesses : Accesses) (offset : Nat) : Nat -> Accesses
  | 0 => accesses
  | count + 1 => (accesses.write (offset + count)).fill offset count

end Accesses

/-- The loop of `parse_hex4`.  A byte that is no digit ends it with zero, which is
also what four zeroes are read as: the caller cannot tell them apart. -/
def parseHexLoopWatched (buffer : ParseBuffer) :
    Nat -> Nat -> Nat -> Accesses -> Except Fault (Nat × Accesses)
  | 0, _, h, accesses => .ok (h, accesses)
  | count + 1, input, h, accesses => do
      let byte ← buffer.read input
      match hexDigit byte with
      | none => .ok (0, accesses.read input)
      | some digit =>
          let h := h + digit
          parseHexLoopWatched buffer count (input + 1) (if count = 0 then h else h <<< 4)
            (accesses.read input)

/-- `parse_hex4`. -/
def parseHex4Watched (buffer : ParseBuffer) (input : Nat) (accesses : Accesses) :
    Except Fault (Nat × Accesses) :=
  parseHexLoopWatched buffer 4 input 0 accesses

/-- The first half of `utf16_literal_to_utf8`: the code point, and the number of bytes
that spell it, six for one literal and twelve for a pair.  A literal that is cut off
by the end, a lone low surrogate, and a high one without a low one behind it have
none. -/
def utf16CodepointWatched (buffer : ParseBuffer) (inputPointer inputEnd : Nat) (accesses : Accesses) :
    Except Fault (Option (Nat × Nat) × Accesses) :=
  if inputEnd - inputPointer < 6 then .ok (none, accesses)
  else do
    let (firstCode, accesses) ← parseHex4Watched buffer (inputPointer + 2) accesses
    if 0xDC00 ≤ firstCode ∧ firstCode ≤ 0xDFFF then .ok (none, accesses)
    else if 0xD800 ≤ firstCode ∧ firstCode ≤ 0xDBFF then
      let secondSequence := inputPointer + 6
      if inputEnd - secondSequence < 6 then .ok (none, accesses)
      else do
        let backslash ← buffer.read secondSequence
        let accesses := accesses.read secondSequence
        if backslash ≠ 0x5C then .ok (none, accesses)
        else do
          let letter ← buffer.read (secondSequence + 1)
          let accesses := accesses.read (secondSequence + 1)
          if letter ≠ 0x75 then .ok (none, accesses)
          else do
            let (secondCode, accesses) ← parseHex4Watched buffer (secondSequence + 2) accesses
            if ¬ (0xDC00 ≤ secondCode ∧ secondCode ≤ 0xDFFF) then .ok (none, accesses)
            else
              .ok (some ((0x10000 + ((firstCode &&& 0x3FF) <<< 10)) ||| (secondCode &&& 0x3FF), 12),
                accesses)
    else .ok (some (firstCode, 6), accesses)

/-- `utf16_literal_to_utf8`, writing from an offset of the block on.  No bytes
consumed means a failure; otherwise the bytes of the code point have been written one
behind the other. -/
def utf16LiteralToUtf8Watched (buffer : ParseBuffer) (inputPointer inputEnd outputPointer : Nat)
    (accesses : Accesses) : Except Fault ((Nat × Bytes) × Accesses) := do
  match ← utf16CodepointWatched buffer inputPointer inputEnd accesses with
  | (none, accesses) => .ok ((0, []), accesses)
  | (some (codepoint, sequenceLength), accesses) =>
      match encodeCodepoint codepoint with
      | none => .ok ((0, []), accesses)
      | some bytes => .ok ((sequenceLength, bytes), accesses.fill outputPointer bytes.length)

/-- The second pass of `parse_string`: from the input pointer to the closing quote,
each byte is copied or its escape is decoded.  The result is where the pass has come
to and what has been written; if it stops in front of the end, the escape there is
none. -/
def decodeStringWatched (buffer : ParseBuffer) (inputEnd : Nat) :
    Nat -> Nat -> Bytes -> Accesses -> Except Fault ((Nat × Bytes) × Accesses)
  | 0, _, _, _ => .error .outOfFuel
  | fuel + 1, inputPointer, output, accesses =>
      if inputEnd ≤ inputPointer then .ok ((inputPointer, output), accesses)
      else do
        let byte ← buffer.read inputPointer
        let accesses := accesses.read inputPointer
        if byte ≠ 0x5C then
          decodeStringWatched buffer inputEnd fuel (inputPointer + 1) (output ++ [byte])
            (accesses.write output.length)
        else do
          let code ← buffer.read (inputPointer + 1)
          let accesses := accesses.read (inputPointer + 1)
          match simpleEscape code with
          | some decoded =>
              decodeStringWatched buffer inputEnd fuel (inputPointer + 2) (output ++ [decoded])
                (accesses.write output.length)
          | none =>
              if code = 0x75 then do
                let ((sequenceLength, bytes), accesses) ←
                  utf16LiteralToUtf8Watched buffer inputPointer inputEnd output.length accesses
                if sequenceLength = 0 then .ok ((inputPointer, output), accesses)
                else
                  decodeStringWatched buffer inputEnd fuel (inputPointer + sequenceLength)
                    (output ++ bytes) accesses
              else .ok ((inputPointer, output), accesses)

/-- The second pass of one call: the closing quote, the size of the block, and the
bytes touched.  That the decoder stays inside means that no read is behind the quote
and no write behind the block. -/
structure SecondPass where
  closing : Nat
  room : Nat
  accesses : Accesses

/-- `parse_string`, with its second pass if it gets that far.  The final NUL is
written behind the bytes decoded. -/
def parseStringWatched (buffer : ParseBuffer) :
    Except Fault ((Option Bytes × ParseBuffer) × Option SecondPass) := do
  let startOffset := buffer.offset
  let failing := fun buffer : ParseBuffer => do
    let result ← failAfterQuote buffer startOffset
    .ok (result, none)
  let quote ← buffer.read startOffset
  if quote ≠ 0x22 then failing buffer
  else do
    match ← findClosingQuote buffer (buffer.length + 1 - startOffset) (startOffset + 1) 0 with
    | none => failing buffer
    | some (inputEnd, skippedBytes) =>
        let allocationLength := inputEnd - startOffset - skippedBytes
        if !buffer.granted (allocationLength + 1) then
          failing (buffer.requested (allocationLength + 1))
        else do
          let buffer := buffer.requested (allocationLength + 1)
          let ((inputPointer, output), accesses) ←
            decodeStringWatched buffer inputEnd (inputEnd - startOffset) (startOffset + 1) [] ⟨[], []⟩
          if inputPointer < inputEnd then do
            let buffer ← buffer.seek inputPointer
            .ok ((none, buffer), some ⟨inputEnd, allocationLength + 1, accesses⟩)
          else do
            let buffer ← buffer.seek (inputEnd + 1)
            .ok ((some output, buffer),
              some ⟨inputEnd, allocationLength + 1, accesses.write output.length⟩)

/-! ## The same result -/

section Erasure

variable {buffer : ParseBuffer}

theorem parseHexLoopWatched_fst (count input h : Nat) (accesses : Accesses) :
    Prod.fst <$> parseHexLoopWatched buffer count input h accesses = parseHexLoop buffer count input h := by
  induction count generalizing input h accesses with
  | zero => rfl
  | succ count ih =>
      rw [parseHexLoopWatched, parseHexLoop, map_bind]
      congr 1
      funext byte
      cases hexDigit byte with
      | none => rfl
      | some digit => exact ih _ _ _

theorem utf16CodepointWatched_fst (inputPointer inputEnd : Nat) (accesses : Accesses) :
    Prod.fst <$> utf16CodepointWatched buffer inputPointer inputEnd accesses =
      utf16Codepoint buffer inputPointer inputEnd := by
  rw [utf16CodepointWatched, utf16Codepoint, apply_ite (Functor.map Prod.fst)]
  congr 1
  rw [parseHex4, ← @parseHexLoopWatched_fst _ 4 _ 0 accesses, bind_map_left, parseHex4Watched, map_bind]
  congr 1
  funext first
  rw [apply_ite (Functor.map Prod.fst)]
  congr 1
  rw [apply_ite (Functor.map Prod.fst)]
  congr 1
  dsimp only
  rw [apply_ite (Functor.map Prod.fst)]
  congr 1
  rw [map_bind]
  congr 1
  funext backslash
  rw [apply_ite (Functor.map Prod.fst)]
  congr 1
  rw [map_bind]
  congr 1
  funext letter
  rw [apply_ite (Functor.map Prod.fst), parseHex4,
    ← @parseHexLoopWatched_fst _ 4 _ 0 ((first.2.read (inputPointer + 6)).read (inputPointer + 6 + 1)),
    bind_map_left, parseHex4Watched, map_bind]
  congr 2
  funext second
  rw [apply_ite (Functor.map Prod.fst)]
  rfl

theorem utf16LiteralToUtf8Watched_fst (inputPointer inputEnd outputPointer : Nat) (accesses : Accesses) :
    Prod.fst <$> utf16LiteralToUtf8Watched buffer inputPointer inputEnd outputPointer accesses =
      utf16LiteralToUtf8 buffer inputPointer inputEnd := by
  rw [utf16LiteralToUtf8Watched, utf16LiteralToUtf8, ← utf16CodepointWatched_fst _ _ accesses, bind_map_left,
    map_bind]
  congr 1
  funext codepoint
  rcases codepoint with ⟨_ | ⟨codepoint, sequenceLength⟩, accesses⟩
  · rfl
  · dsimp only
    cases encodeCodepoint codepoint with
    | none => rfl
    | some bytes => rfl

theorem decodeStringWatched_fst (inputEnd fuel inputPointer : Nat) (output : Bytes) (accesses : Accesses) :
    Prod.fst <$> decodeStringWatched buffer inputEnd fuel inputPointer output accesses =
      decodeString buffer inputEnd fuel inputPointer output := by
  induction fuel generalizing inputPointer output accesses with
  | zero => rfl
  | succ fuel ih =>
      rw [decodeStringWatched, decodeString, apply_ite (Functor.map Prod.fst), map_bind]
      congr 2
      funext byte
      rw [apply_ite (Functor.map Prod.fst), ih, map_bind]
      congr 2
      funext code
      dsimp only
      cases simpleEscape code with
      | some decoded => exact ih _ _ _
      | none =>
          dsimp only
          rw [apply_ite (Functor.map Prod.fst),
            ← utf16LiteralToUtf8Watched_fst _ _ output.length
              ((accesses.read inputPointer).read (inputPointer + 1)), bind_map_left, map_bind]
          congr 2
          funext literal
          rcases literal with ⟨⟨sequenceLength, bytes⟩, accesses⟩
          dsimp only
          rw [apply_ite (Functor.map Prod.fst), ih]
          rfl

/-- The trace adds nothing but what it notes. -/
theorem parseStringWatched_fst (buffer : ParseBuffer) :
    Prod.fst <$> parseStringWatched buffer = parseStringBytes buffer := by
  have failing : ∀ buffer startOffset, Prod.fst <$> (do
      let result ← failAfterQuote buffer startOffset
      (.ok (result, none) : Except Fault ((Option Bytes × ParseBuffer) × Option SecondPass))) =
        failAfterQuote buffer startOffset := by
    intro buffer startOffset
    rw [map_bind]
    exact bind_pure _
  rw [parseStringWatched, parseStringBytes, map_bind]
  congr 1
  funext quote
  rw [apply_ite (Functor.map Prod.fst), failing, map_bind]
  congr 2
  funext found
  cases found with
  | none => exact failing _ _
  | some found =>
      rcases found with ⟨inputEnd, skippedBytes⟩
      dsimp only
      rw [apply_ite (Functor.map Prod.fst), failing, ← decodeStringWatched_fst _ _ _ _ ⟨[], []⟩, bind_map_left,
        map_bind]
      congr 2
      funext decoded
      rcases decoded with ⟨⟨inputPointer, output⟩, accesses⟩
      dsimp only
      rw [apply_ite (Functor.map Prod.fst), map_bind, map_bind]
      rfl

end Erasure

end CJson
