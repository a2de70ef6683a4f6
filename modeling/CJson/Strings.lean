import CJson.Literals

/-!
# Reading a string

A call of `parse_string` looks for the closing quote, asks for a block and decodes.
What it returns and what it touches follow from how the text between the quotes
falls into pieces: without a piece that lacks digits the text is a literal, and a
literal is decoded to the bytes it denotes.
-/

namespace CJson

open CString ParseBuffer JsonString

section Calls

variable {buffer : ParseBuffer} {body rest : Bytes}

/-- The first pass counts the escapes, and it takes the quote that no escape is in
front of. -/
theorem findClosingQuote_escapes {start fuel skipped quote total : Nat} (shape : QuotedBody body)
    (split : buffer.content.drop start = body ++ 0x22 :: rest)
    (found : findClosingQuote buffer fuel start skipped = .ok (some (quote, total))) :
    quote = start + body.length ∧ total = skipped + escapes false body := by
  induction shape generalizing start fuel skipped with
  | done =>
      cases fuel with
      | zero => cases found
      | succ fuel =>
          rw [findClosingQuote] at found
          split at found
          · cases found
          rw [read_eq_ok.mpr (getElem?_of_drop split).1, Except.ok_bind, if_pos rfl] at found
          cases found
          exact ⟨rfl, rfl⟩
  | plain notQuote notBackslash shape ih =>
      cases fuel with
      | zero => cases found
      | succ fuel =>
          have first := getElem?_of_drop split
          rw [findClosingQuote] at found
          split at found
          · cases found
          rw [read_eq_ok.mpr first.1, Except.ok_bind, if_neg notQuote, if_neg notBackslash] at found
          rcases ih first.2 found with ⟨position, count⟩
          rw [escapes, if_neg notBackslash, List.length_cons]
          exact ⟨by omega, count⟩
  | escape shape ih =>
      cases fuel with
      | zero => cases found
      | succ fuel =>
          have first := getElem?_of_drop split
          rw [findClosingQuote] at found
          split at found
          · cases found
          rw [read_eq_ok.mpr first.1, Except.ok_bind, if_neg (by decide), if_pos rfl] at found
          split at found
          · cases found
          rcases ih (getElem?_of_drop first.2).2 found with ⟨position, count⟩
          rw [escapes, if_pos rfl, escapes, List.length_cons, List.length_cons]
          exact ⟨by omega, by omega⟩

/-- The text at the cursor is a quote, a body and another quote.  The body is what
stands up to the first quote that no backslash precedes, as the first pass of
`parse_string` finds it. -/
def Quotes (buffer : ParseBuffer) (body : Bytes) : Prop :=
  QuotedBody body ∧ ∃ rest, buffer.remaining = quoted body ++ rest

theorem Quotes.split (quotes : Quotes buffer body) :
    ∃ rest, buffer.content.drop buffer.offset = 0x22 :: (body ++ 0x22 :: rest) := by
  rcases quotes.2 with ⟨rest, remaining⟩
  refine ⟨rest, ?_⟩
  rw [ParseBuffer.remaining, quoted] at remaining
  rw [remaining, List.cons_append, List.append_assoc]
  rfl

theorem Quotes.inside (valid : buffer.Valid) (quotes : Quotes buffer body) :
    buffer.offset + (body.length + 2) ≤ buffer.length := by
  rcases quotes.2 with ⟨rest, remaining⟩
  have total := valid.remaining_length
  rw [remaining, List.length_append, quoted_length] at total
  omega

theorem QuotedBody.unique {first second behind : Bytes} (shape : QuotedBody first) (other : QuotedBody second)
    (same : first ++ 0x22 :: rest = second ++ 0x22 :: behind) : first = second ∧ rest = behind := by
  induction shape generalizing second with
  | done =>
      cases other with
      | done => exact ⟨rfl, (List.cons.inj same).2⟩
      | plain notQuote _ _ => exact absurd (List.cons.inj same).1.symm notQuote
      | escape _ => exact absurd (List.cons.inj same).1 (by decide)
  | plain notQuote notBackslash _ ih =>
      cases other with
      | done => exact absurd (List.cons.inj same).1 notQuote
      | plain _ _ shape =>
          injection same with byte same
          rcases ih shape same with ⟨bodies, rests⟩
          exact ⟨by rw [byte, bodies], rests⟩
      | escape _ => exact absurd (List.cons.inj same).1 notBackslash
  | escape _ ih =>
      cases other with
      | done => exact absurd (List.cons.inj same).1 (by decide)
      | plain _ notBackslash _ => exact absurd (List.cons.inj same).1.symm notBackslash
      | escape shape =>
          injection same with _ same
          injection same with byte same
          rcases ih shape same with ⟨bodies, rests⟩
          exact ⟨by rw [byte, bodies], rests⟩

/-- The closing quote is the first without a backslash. -/
theorem Quotes.unique {other : Bytes} (quotes : Quotes buffer body) (others : Quotes buffer other) :
    body = other := by
  rcases quotes.split with ⟨rest, split⟩
  rcases others.split with ⟨behind, same⟩
  rw [split] at same
  exact (quotes.1.unique others.1 (List.cons.inj same).2).1

/-- What a call returns when some text is left behind the last piece. -/
def decoded? (written tail : Bytes) : Option Bytes :=
  if tail = [] ∨ tail = [0x5C] then some (written ++ behindBackslash tail) else none

/-- What the second pass touches, given what is left behind the last piece. -/
structure Stays (opening : Nat) (tail : Bytes) (pass : SecondPass) : Prop where
  writes : ∀ offset ∈ pass.accesses.writes, offset < pass.room
  reads : ∀ index ∈ pass.accesses.reads, opening < index ∧ index < pass.closing + (behindBackslash tail).length
  overrun : tail = [0x5C] -> pass.closing ∈ pass.accesses.reads

/-- The second pass, when it is reached: the first one has found the closing quote,
and the block for the output has been granted. -/
theorem parseStringWatched_quoted (valid : buffer.Valid) (quotes : Quotes buffer body)
    (granted : buffer.granted (room body) = true) :
    ∃ flag front tail written after accesses, body = front ++ tail ∧ Pieces flag front written ∧ Halts tail ∧
      parseStringWatched buffer = .ok ((decoded? written tail, after),
        some ⟨buffer.offset + (body.length + 1), room body, accesses⟩) ∧
      Stays buffer.offset tail ⟨buffer.offset + (body.length + 1), room body, accesses⟩ ∧
      (decoded? written tail ≠ none -> after.offset = buffer.offset + (body.length + 2)) := by
  rcases quotes.split with ⟨rest, split⟩
  have inside := quotes.inside valid
  have opening := getElem?_of_drop split
  rcases @findClosingQuote_complete _ valid _ quotes.1 (buffer.length + 1 - buffer.offset) _ 0 _
    opening.2 (by omega) with
    ⟨total, found⟩
  have counted := (findClosingQuote_escapes quotes.1 opening.2 found).2
  rw [Nat.zero_add] at counted
  rw [Nat.add_assoc, Nat.add_comm 1] at found
  have size : buffer.offset + (body.length + 1) - buffer.offset - total + 1 = room body := by
    rw [Nat.add_sub_cancel_left, counted, room]
  have ends : buffer.offset + (body.length + 1) = buffer.offset + 1 + body.length := by omega
  rcases @decodeStringWatched_eq (buffer.requested (room body)) _ _ _ _ (body.length + 1) opening.2 ends
    (Nat.lt_succ_self _) [] ⟨[], []⟩ with
    ⟨flag, front, tail, written, accesses, whole, pieces, halts, ran, touched, overrun⟩
  have fits := pieces.fits tail
  rw [← whole] at fits
  rw [List.nil_append] at ran
  have writes : ∀ offset ∈ accesses.writes, offset < room body := by
    intro offset isWritten
    rcases touched.writes offset isWritten with none | between
    · cases none
    · exact Nat.lt_trans between.2 (by rwa [List.length_nil, Nat.zero_add])
  have reads : ∀ index ∈ accesses.reads, buffer.offset < index ∧
      index < buffer.offset + (body.length + 1) + (behindBackslash tail).length := by
    intro index isRead
    rcases touched.reads index isRead with none | between
    · cases none
    · exact ⟨by omega, between.2⟩
  rw [parseStringWatched, read_eq_ok.mpr opening.1, Except.ok_bind, if_neg (by decide), found, Except.ok_bind]
  dsimp only
  rw [size, granted, if_neg (by decide), Nat.add_sub_cancel_left, ran, Except.ok_bind]
  dsimp only
  have length := congrArg List.length whole
  rw [List.length_append] at length
  by_cases complete : tail = [] ∨ tail = [0x5C]
  · have arrived : ¬ (if tail = [0x5C] then buffer.offset + (body.length + 1) + 1
        else buffer.offset + 1 + front.length) < buffer.offset + (body.length + 1) := by
      rcases complete with rfl | rfl
      · rw [if_neg (by decide)]
        rw [List.length_nil] at length
        omega
      · rw [if_pos rfl]
        omega
    have moved : (buffer.requested (room body)).seek (buffer.offset + (body.length + 1) + 1) =
        .ok { buffer.requested (room body) with offset := buffer.offset + (body.length + 1) + 1 } := if_pos inside
    rw [if_neg arrived, moved]
    refine ⟨flag, front, tail, written,
      { buffer.requested (room body) with offset := buffer.offset + (body.length + 1) + 1 },
      accesses.write (written ++ behindBackslash tail).length, whole, pieces, halts, ?_, ?_, fun _ => rfl⟩
    · rw [decoded?, if_pos complete]
      rfl
    · refine ⟨?_, reads, overrun⟩
      intro offset isWritten
      rcases List.mem_append.mp isWritten with decoded | nul
      · exact writes offset decoded
      · exact List.mem_singleton.mp nul ▸ fits
  · have left := List.length_pos_of_ne_nil (not_or.mp complete).1
    have arrived : buffer.offset + 1 + front.length < buffer.offset + (body.length + 1) := by omega
    have moved : (buffer.requested (room body)).seek (buffer.offset + 1 + front.length) =
        .ok { buffer.requested (room body) with offset := buffer.offset + 1 + front.length } :=
      if_pos (show buffer.offset + 1 + front.length ≤ buffer.length by omega)
    rw [if_neg (not_or.mp complete).2, if_pos arrived, moved]
    refine ⟨flag, front, tail, written,
      { buffer.requested (room body) with offset := buffer.offset + 1 + front.length },
      accesses, whole, pieces, halts, ?_, ⟨writes, reads, overrun⟩, ?_⟩
    · rw [decoded?, if_neg complete]
      rfl
    · rw [decoded?, if_neg complete]
      exact fun impossible => absurd rfl impossible

/-- Otherwise nothing is decoded. -/
theorem parseStringWatched_fails (valid : buffer.Valid) (inside : buffer.offset < buffer.length)
    (none : ∀ body, Quotes buffer body -> buffer.granted (room body) = false) :
    ∃ after, parseStringWatched buffer = .ok ((Option.none, after), Option.none) := by
  have failing : ∀ other : ParseBuffer, other.length = buffer.length ->
      ∃ after, (do
        let result ← failAfterQuote other buffer.offset
        (.ok (result, Option.none) : Except Fault ((Option Bytes × ParseBuffer) × Option SecondPass))) =
          .ok ((Option.none, after), Option.none) := by
    intro other length
    refine ⟨{ other with offset := buffer.offset + 1 }, ?_⟩
    rw [failAfterQuote]
    dsimp only [ParseState.buffer, ParseState.withBuffer]
    rw [seek, if_pos (by omega)]
    rfl
  rcases valid.read_returns inside with ⟨quote, read, found⟩
  rw [parseStringWatched, read, Except.ok_bind]
  by_cases notQuote : quote ≠ 0x22
  · rw [if_pos notQuote]
    exact failing buffer rfl
  rw [if_neg notQuote]
  rcases findClosingQuote_returns valid (show buffer.length + 1 ≤
    buffer.length + 1 - buffer.offset + (buffer.offset + 1) by omega) (by omega) with ⟨closing, searched, _⟩
  rw [searched, Except.ok_bind]
  cases closing with
  | none => exact failing buffer rfl
  | some pair =>
      rcases pair with ⟨inputEnd, skippedBytes⟩
      rcases findClosingQuote_sound searched with ⟨body, rest, split, shape, position⟩
      have counted := (findClosingQuote_escapes shape split searched).2
      have quotes : Quotes buffer body := by
        refine ⟨shape, rest, ?_⟩
        rw [ParseBuffer.remaining, drop_eq_cons found, split, not_not.mp notQuote, quoted, List.cons_append,
          List.append_assoc]
        rfl
      have size : inputEnd - buffer.offset - skippedBytes + 1 = room body := by
        rw [room, counted, position]
        omega
      dsimp only
      rw [size, none body quotes]
      exact failing (buffer.requested (room body)) rfl

end Calls

/-! ## Literals and pieces -/

theorem QuotedBody.tail {byte : UInt8} {rest : Bytes} (shape : QuotedBody (byte :: rest))
    (notBackslash : byte ≠ 0x5C) : byte ≠ 0x22 ∧ QuotedBody rest := by
  cases shape with
  | plain notQuote _ shape => exact ⟨notQuote, shape⟩
  | escape _ => exact absurd rfl notBackslash

theorem QuotedBody.behind {letter : UInt8} {rest : Bytes} (shape : QuotedBody (0x5C :: letter :: rest)) :
    QuotedBody rest := by
  cases shape with
  | plain _ notBackslash _ => exact absurd rfl notBackslash
  | escape shape => exact shape

/-- Digits are plain bytes. -/
theorem quotedBody_digits {digits rest : Bytes} {code : Nat} (read : code? digits = some code) :
    QuotedBody (digits ++ rest) ↔ QuotedBody rest := by
  rcases exists_of_code? read with ⟨a, b, c, d, _, _, _, _, rfl, readA, readB, readC, readD, _⟩
  have plainA := ne_of_hex? readA
  have plainB := ne_of_hex? readB
  have plainC := ne_of_hex? readC
  have plainD := ne_of_hex? readD
  constructor
  · intro shape
    exact ((((shape.tail plainA.2).2.tail plainB.2).2.tail plainC.2).2.tail plainD.2).2
  · intro shape
    exact .plain plainA.1 plainA.2 (.plain plainB.1 plainB.2
      (.plain plainC.1 plainC.2 (.plain plainD.1 plainD.2 shape)))

theorem quotedBody_of_literal {text meaning : Bytes} (literal : Literal text meaning) : QuotedBody text := by
  induction literal with
  | done => exact .done
  | raw notQuote notBackslash _ ih => exact .plain notQuote notBackslash ih
  | escape _ _ ih => exact .escape ih
  | unicode read _ _ _ ih => exact .escape ((quotedBody_digits read).mpr ih)
  | @pair first second _ _ text _ readHigh _ readLow _ _ ih =>
      apply QuotedBody.escape
      show QuotedBody (first ++ 0x5C :: 0x75 :: second ++ text)
      rw [List.append_assoc]
      exact (quotedBody_digits readHigh).mpr (.escape ((quotedBody_digits readLow).mpr ih))

/-- The two-byte escapes are those of the grammar. -/
theorem escaped?_eq (letter : UInt8) :
    (escaped? letter).map String.utf8EncodeChar = (simpleEscape letter).map (fun byte => [byte]) := by
  have letters : ∀ code < 256, (escaped? (UInt8.ofNat code)).map String.utf8EncodeChar =
      (simpleEscape (UInt8.ofNat code)).map (fun byte => [byte]) := by
    decide +kernel
  have one := letters letter.toNat letter.toNat_lt
  rwa [UInt8.ofNat_toNat] at one

/-- A literal falls into pieces that have their digits. -/
theorem pieces_of_literal {text meaning : Bytes} (literal : Literal text meaning) :
    Pieces false text meaning := by
  induction literal with
  | done => exact .nil
  | raw _ notBackslash _ ih => exact .cons (.plain notBackslash) ih
  | @escape letter character text meaning named _ ih =>
      have same := escaped?_eq letter
      rw [named, Option.map_some] at same
      rcases Option.map_eq_some_iff.mp same.symm with ⟨byte, known, encoded⟩
      rw [← encoded]
      exact .cons (.simple known) ih
  | @unicode digits code text meaning read notHigh notLow _ ih =>
      have number : hex4 digits = code := by rw [hex4, read, Option.getD_some]
      rw [← number] at notHigh notLow ⊢
      have piece := Piece.unicode (code?_length read) notHigh notLow
      rw [read] at piece
      exact .cons piece ih
  | @pair first second high low text meaning readHigh isHigh readLow isLow _ ih =>
      have numberHigh : hex4 first = high := by rw [hex4, readHigh, Option.getD_some]
      have numberLow : hex4 second = low := by rw [hex4, readLow, Option.getD_some]
      rw [← numberHigh] at isHigh ⊢
      rw [← numberLow] at isLow ⊢
      exact .cons (.pair (code?_length readHigh) (code?_length readLow) isHigh isLow) ih

/-- Four bytes that are not all digits make a piece, which writes a NUL. -/
theorem piece_of_unread {digits : Bytes} (four : digits.length = 4) (unread : code? digits = none) :
    Piece true (0x5C :: 0x75 :: digits) [0] := by
  have zero : hex4 digits = 0 := by rw [hex4, unread, Option.getD_none]
  have notHigh : ¬ IsHigh 0 := fun high => absurd high.1 (by decide)
  have notLow : ¬ IsLow 0 := fun low => absurd low.1 (by decide)
  have nul : String.utf8EncodeChar (.ofNat 0) = [0] := by decide
  rw [← zero] at notHigh notLow
  have piece := Piece.unicode four notHigh notLow
  rwa [unread, zero, nul] at piece

/-- A number that is not 0 has been read from four digits. -/
theorem code?_of_hex4 {digits : Bytes} (nonzero : hex4 digits ≠ 0) :
    code? digits = some (hex4 digits) := by
  rw [hex4] at nonzero ⊢
  cases read : code? digits with
  | none =>
      rw [read] at nonzero
      exact absurd rfl nonzero
  | some code => rfl

/-- Pieces with all their digits, up to some place of a text between quotes, are a
literal, and the two passes agree there. -/
theorem literal_of_pieces {flag : Bool} {text output tail : Bytes} (pieces : Pieces flag text output)
    (noneMissing : flag = false) (shape : QuotedBody (text ++ tail)) :
    Literal text output ∧ QuotedBody tail := by
  induction pieces with
  | nil => exact ⟨.done, shape⟩
  | cons first _ ih =>
      rw [Bool.or_eq_false_iff] at noneMissing
      rw [List.append_assoc] at shape
      cases first with
      | plain notBackslash =>
          rcases shape.tail notBackslash with ⟨notQuote, shape⟩
          rcases ih noneMissing.2 shape with ⟨literal, shape⟩
          exact ⟨.raw notQuote notBackslash literal, shape⟩
      | @simple letter byte known =>
          rcases ih noneMissing.2 shape.behind with ⟨literal, shape⟩
          have same := escaped?_eq letter
          rw [known, Option.map_some] at same
          rcases Option.map_eq_some_iff.mp same with ⟨character, named, encoded⟩
          rw [← encoded]
          exact ⟨.escape named literal, shape⟩
      | @unicode digits _ notHigh notLow =>
          rcases Option.isSome_iff_exists.mp (Option.isNone_eq_false_iff.mp noneMissing.1) with ⟨code, read⟩
          have number : hex4 digits = code := by rw [hex4, read, Option.getD_some]
          rcases ih noneMissing.2 ((quotedBody_digits read).mp shape.behind) with ⟨literal, shape⟩
          rw [number] at notHigh notLow ⊢
          exact ⟨.unicode read notHigh notLow literal, shape⟩
      | @pair first second _ _ isHigh isLow =>
          have readHigh : code? first = some (hex4 first) := by
            apply code?_of_hex4
            intro zero
            rw [zero] at isHigh
            exact absurd isHigh.1 (by decide)
          have readLow : code? second = some (hex4 second) := by
            apply code?_of_hex4
            intro zero
            rw [zero] at isLow
            exact absurd isLow.1 (by decide)
          have behind := QuotedBody.behind shape
          rw [List.append_eq, List.append_assoc] at behind
          have last := (quotedBody_digits readHigh).mp behind
          rcases ih noneMissing.2 ((quotedBody_digits readLow).mp last.behind) with ⟨literal, shape⟩
          exact ⟨.pair readHigh isHigh readLow isLow literal, shape⟩

/-! ## What a call does -/

section Calls

variable {buffer : ParseBuffer}

/-- The call is the one whose second pass is watched. -/
theorem parseString_of_watched {after : ParseBuffer} {output : Option Bytes} {pass : Option SecondPass}
    (ran : parseStringWatched buffer = .ok ((output, after), pass)) (item : Item) :
    parseString item buffer = .ok (output.map (setString item), after) := by
  rw [parseString_eq, ← parseStringWatched_fst, ran]
  rfl

/-- The second pass, for pieces that are given: it decodes them one after the other
and stops where the next bytes are no piece. -/
theorem parseStringWatched_pieces {body front tail written : Bytes} {flag : Bool} (valid : buffer.Valid)
    (quotes : Quotes buffer body) (granted : buffer.granted (room body) = true) (split : body = front ++ tail)
    (pieces : Pieces flag front written) (halts : Halts tail) :
    ∃ after accesses, parseStringWatched buffer = .ok ((decoded? written tail, after),
        some ⟨buffer.offset + (body.length + 1), room body, accesses⟩) ∧
      Stays buffer.offset tail ⟨buffer.offset + (body.length + 1), room body, accesses⟩ ∧
      (decoded? written tail ≠ none -> after.offset = buffer.offset + (body.length + 2)) := by
  rcases parseStringWatched_quoted valid quotes granted with
    ⟨_, _, _, _, after, accesses, same, others, stops, ran, stays, moved⟩
  rw [split] at same
  rcases pieces.unique halts others stops same with ⟨_, rfl, rfl, rfl⟩
  exact ⟨after, accesses, ran, stays, moved⟩

/-- A literal is decoded to the bytes it denotes, and the cursor ends behind it.  The
literal is one of RFC 8259, given without reference to the code; the request for the
output must be granted. -/
theorem parseString_decodes (item : Item) {body meaning rest : Bytes} (valid : buffer.Valid)
    (literal : Literal body meaning) (whole : buffer.remaining = quoted body ++ rest)
    (allocated : buffer.granted (room body) = true) :
    ∃ after, parseString item buffer = .ok (some (setString item meaning), after) ∧
      after.offset = buffer.offset + (quoted body).length := by
  have quotes : Quotes buffer body := ⟨quotedBody_of_literal literal, rest, whole⟩
  rcases parseStringWatched_pieces valid quotes allocated (List.append_nil _).symm (pieces_of_literal literal)
    halts_nil with ⟨after, _, ran, _, moved⟩
  have returned : decoded? meaning [] = some meaning := by
    rw [decoded?, if_pos (Or.inl rfl), behindBackslash, if_neg (by decide), List.append_nil]
  rw [returned] at ran moved
  refine ⟨after, parseString_of_watched ran item, ?_⟩
  rw [quoted_length]
  exact moved (Option.some_ne_none _)

/-- A pair and a newline, inside an array. -/
theorem parseString_decodes_pair : ∃ after,
    parseString newItem (⟨[0x5B, 0x22, 0x5C, 0x75, 0x44, 0x38, 0x33, 0x64, 0x5C, 0x75, 0x64, 0x45, 0x30, 0x30, 0x5C,
      0x6E, 0x22, 0x5D], 18, 1, 0, grantAll⟩ : ParseBuffer) =
      .ok (some (setString newItem [0xF0, 0x9F, 0x98, 0x80, 0x0A]), after) ∧ after.offset = 1 + 16 := by
  have encoded : String.utf8EncodeChar (joined 0xD83D 0xDE00) ++ (String.utf8EncodeChar (.ofNat 10) ++ []) =
      [0xF0, 0x9F, 0x98, 0x80, 0x0A] := by
    decide +kernel
  have high : code? [0x44, 0x38, 0x33, 0x64] = some 0xD83D := by decide
  have low : code? [0x64, 0x45, 0x30, 0x30] = some 0xDE00 := by decide
  have newline : escaped? 0x6E = some (.ofNat 10) := by decide
  rw [← encoded]
  exact parseString_decodes newItem ⟨rfl, by decide⟩
    (.pair high ⟨by decide, by decide⟩ low ⟨by decide, by decide⟩ (.escape newline .done)) rfl rfl

/-- The string at the cursor falls into pieces up to its end, or up to one backslash
in front of the closing quote, and in one of them there are no digits where digits
belong.  Such a string is accepted although it is no literal: bad digits count as zero
and are skipped with the rest of the escape.  The condition is on the text alone, and
does not run the decoder. -/
def Absorbs (buffer : ParseBuffer) : Prop :=
  ∃ body front tail written, Quotes buffer body ∧ buffer.granted (room body) = true ∧ body = front ++ tail ∧
    (tail = [] ∨ tail = [0x5C]) ∧ Pieces true front written

/-- What is accepted is a literal, and what is no literal is refused.  A refusal
returns, with the cursor somewhere in the buffer; which literals are refused for want
of memory is not said. -/
structure ReadsLiterals (item : Item) (buffer : ParseBuffer) : Prop where
  accepted : ∀ parsed after, parseString item buffer = .ok (some parsed, after) ->
    ∃ body meaning, Quotes buffer body ∧ Literal body meaning
  refused : (¬ ∃ body meaning, Quotes buffer body ∧ Literal body meaning) ->
    ∃ after, parseString item buffer = .ok (none, after)

theorem halts_of_end {tail : Bytes} (complete : tail = [] ∨ tail = [0x5C]) : Halts tail := by
  rcases complete with rfl | rfl
  · exact halts_nil
  · exact halts_backslash

/-- Bytes that are no digits are taken for the number 0. -/
theorem not_readsLiterals (item : Item) (valid : buffer.Valid) (absorbs : Absorbs buffer) :
    ¬ ReadsLiterals item buffer := by
  intro reads
  rcases absorbs with ⟨body, front, tail, written, quotes, granted, split, complete, pieces⟩
  rcases parseStringWatched_pieces valid quotes granted split pieces (halts_of_end complete) with ⟨after, _, ran, _⟩
  rw [decoded?, if_pos complete] at ran
  rcases reads.accepted _ after (parseString_of_watched ran item) with ⟨other, meaning, others, literal⟩
  have same : front ++ tail = other ++ [] := by rw [List.append_nil, ← split, quotes.unique others]
  have flags := (pieces.unique (halts_of_end complete) (pieces_of_literal literal) halts_nil same).1
  exact Bool.noConfusion flags

/-- `parse_string` reads literals and nothing else, unless it takes something else for
digits and finds no other fault. -/
theorem parseString_readsLiterals_iff (item : Item) (valid : buffer.Valid) (inside : buffer.offset < buffer.length) :
    ReadsLiterals item buffer ↔ ¬ Absorbs buffer := by
  refine ⟨fun reads absorbs => not_readsLiterals item valid absorbs reads, ?_⟩
  intro digits
  by_cases reached : ∃ body, Quotes buffer body ∧ buffer.granted (room body) = true
  · rcases reached with ⟨body, quotes, granted⟩
    rcases parseStringWatched_quoted valid quotes granted with
      ⟨flag, front, tail, written, after, _, split, pieces, _, ran, _⟩
    have call := parseString_of_watched ran item
    by_cases complete : tail = [] ∨ tail = [0x5C]
    · have whole : ∃ body meaning, Quotes buffer body ∧ Literal body meaning := by
        cases flag with
        | true => exact absurd ⟨body, front, tail, written, quotes, granted, split, complete, pieces⟩ digits
        | false =>
            have shape := quotes.1
            rw [split] at shape
            rcases literal_of_pieces pieces rfl shape with ⟨literal, left⟩
            rcases complete with rfl | rfl
            · rw [List.append_nil] at split
              exact ⟨body, written, quotes, split ▸ literal⟩
            · cases left with
              | plain _ notBackslash _ => exact absurd rfl notBackslash
      exact ⟨fun _ _ _ => whole, fun none => absurd whole none⟩
    · rw [decoded?, if_neg complete] at call
      refine ⟨?_, fun _ => ⟨after, call⟩⟩
      intro parsed other accepted
      rw [call] at accepted
      cases accepted
  · have none : ∀ body, Quotes buffer body -> buffer.granted (room body) = false :=
      fun body quotes => Bool.eq_false_iff.mpr fun granted => reached ⟨body, quotes, granted⟩
    rcases parseStringWatched_fails valid inside none with ⟨after, ran⟩
    have call := parseString_of_watched ran item
    refine ⟨?_, fun _ => ⟨after, call⟩⟩
    intro parsed other accepted
    rw [call] at accepted
    cases accepted

/-- The body of the literal `"a\"\uD83D\uDE00\\n"`: a quote, a surrogate pair and a
backslash, all escaped. -/
def escapedBody : Bytes :=
  [0x61, 0x5C, 0x22, 0x5C, 0x75, 0x44, 0x38, 0x33, 0x44, 0x5C, 0x75, 0x44, 0x45, 0x30, 0x30, 0x5C, 0x5C, 0x6E]

theorem parseString_readsLiterals_iff_escapes :
    ReadsLiterals newItem (bufferOf (quoted escapedBody)) ↔ ¬ Absorbs (bufferOf (quoted escapedBody)) :=
  parseString_readsLiterals_iff newItem (bufferOf_valid _) (by decide)

/-- `"\u00zz"` is read as the string of one NUL. -/
theorem not_readsLiterals_zz :
    (bufferOf [0x22, 0x5C, 0x75, 0x30, 0x30, 0x7A, 0x7A, 0x22]).Valid ∧
      ¬ ReadsLiterals newItem (bufferOf [0x22, 0x5C, 0x75, 0x30, 0x30, 0x7A, 0x7A, 0x22]) := by
  have shape : QuotedBody [0x5C, 0x75, 0x30, 0x30, 0x7A, 0x7A] :=
    .escape (.plain (by decide) (by decide) (.plain (by decide) (by decide) (.plain (by decide) (by decide)
      (.plain (by decide) (by decide) .done))))
  have piece := @piece_of_unread [0x30, 0x30, 0x7A, 0x7A] rfl (by decide)
  apply And.intro (bufferOf_valid _)
  apply not_readsLiterals newItem (bufferOf_valid _)
  exact ⟨_, _, [], _, ⟨shape, [], rfl⟩, rfl, rfl, Or.inl rfl, .cons piece .nil⟩

/-! ## What the second pass touches -/

/-- Every byte written is in the block, and every byte read between the quotes. -/
def SecondPass.Inside (opening : Nat) (pass : SecondPass) : Prop :=
  (∀ offset ∈ pass.accesses.writes, offset < pass.room) ∧
    ∀ index ∈ pass.accesses.reads, opening < index ∧ index < pass.closing

/-- The string at the cursor falls into pieces up to one backslash in front of the
closing quote.  The body is one in which that backslash belongs to an escape of the
first pass, and yet a piece of the second pass ends just before it; so the second pass
reads the closing quote as the letter of an escape.  This takes an escape with bad
digits that has swallowed the backslash in front. -/
def Overruns (buffer : ParseBuffer) : Prop :=
  ∃ body front flag written, Quotes buffer body ∧ buffer.granted (room body) = true ∧ body = front ++ [0x5C] ∧
    Pieces flag front written

/-- The second pass writes into its block only.  It reads nothing behind the closing
quote, and the quote itself exactly if a backslash is left in front of it. -/
theorem parseString_inside_iff (valid : buffer.Valid) (inside : buffer.offset < buffer.length) :
    ∃ result pass, parseStringWatched buffer = .ok (result, pass) ∧
      (∀ reached ∈ pass, (∀ offset ∈ reached.accesses.writes, offset < reached.room) ∧
        ∀ index ∈ reached.accesses.reads, buffer.offset < index ∧ index ≤ reached.closing) ∧
      ((∀ reached ∈ pass, reached.Inside buffer.offset) ↔ ¬ Overruns buffer) := by
  by_cases reached : ∃ body, Quotes buffer body ∧ buffer.granted (room body) = true
  · rcases reached with ⟨body, quotes, granted⟩
    rcases parseStringWatched_quoted valid quotes granted with
      ⟨flag, front, tail, written, after, accesses, split, pieces, halts, ran, stays, _⟩
    refine ⟨_, _, ran, ?_, ?_⟩
    · intro reached same
      cases same
      refine ⟨stays.writes, ?_⟩
      intro index isRead
      have between := stays.reads index isRead
      have one : (behindBackslash tail).length ≤ 1 := by
        rw [behindBackslash]
        split <;> decide
      exact ⟨between.1, by omega⟩
    · constructor
      · rintro within ⟨other, before, otherFlag, bytes, others, _, ends, otherPieces⟩
        have same : front ++ tail = before ++ [0x5C] := by rw [← split, ← ends, quotes.unique others]
        have single := (pieces.unique halts otherPieces halts_backslash same).2.2.2
        have beyond := (within _ rfl).2 _ (stays.overrun single)
        exact absurd beyond.2 (Nat.lt_irrefl _)
      · intro never reached same
        cases same
        refine ⟨stays.writes, ?_⟩
        intro index isRead
        have between := stays.reads index isRead
        have more : tail ≠ [0x5C] := by
          rintro rfl
          exact never ⟨body, front, flag, written, quotes, granted, split, pieces⟩
        rw [behindBackslash, if_neg more] at between
        exact between
  · have none : ∀ body, Quotes buffer body -> buffer.granted (room body) = false :=
      fun body quotes => Bool.eq_false_iff.mpr fun granted => reached ⟨body, quotes, granted⟩
    rcases parseStringWatched_fails valid inside none with ⟨after, ran⟩
    refine ⟨_, _, ran, ?_, ?_⟩
    · intro reached impossible
      cases impossible
    · apply iff_of_true
      · intro reached impossible
        cases impossible
      · rintro ⟨body, _, _, _, quotes, granted, _⟩
        exact reached ⟨body, quotes, granted⟩

theorem parseString_inside_iff_escapes : ∃ result pass,
    parseStringWatched (bufferOf (quoted escapedBody)) = .ok (result, pass) ∧
      (∀ reached ∈ pass, (∀ offset ∈ reached.accesses.writes, offset < reached.room) ∧
        ∀ index ∈ reached.accesses.reads, 0 < index ∧ index ≤ reached.closing) ∧
      ((∀ reached ∈ pass, reached.Inside 0) ↔ ¬ Overruns (bufferOf (quoted escapedBody))) :=
  parseString_inside_iff (bufferOf_valid _) (by decide)

/-- In `"\u000\\"` the escape swallows a backslash, and the one behind it is read with
the closing quote. -/
theorem not_inside_swallowed : ∃ result pass,
    parseStringWatched (bufferOf (quoted [0x5C, 0x75, 0x30, 0x30, 0x30, 0x5C, 0x5C])) = .ok (result, some pass) ∧
      ¬ pass.Inside 0 := by
  have shape : QuotedBody [0x5C, 0x75, 0x30, 0x30, 0x30, 0x5C, 0x5C] :=
    .escape (.plain (by decide) (by decide) (.plain (by decide) (by decide) (.plain (by decide) (by decide)
      (.escape .done))))
  have piece := @piece_of_unread [0x30, 0x30, 0x30, 0x5C] rfl (by decide)
  have quotes : Quotes (bufferOf (quoted [0x5C, 0x75, 0x30, 0x30, 0x30, 0x5C, 0x5C]))
      [0x5C, 0x75, 0x30, 0x30, 0x30, 0x5C, 0x5C] := ⟨shape, [], rfl⟩
  rcases parseStringWatched_pieces (bufferOf_valid _) quotes rfl rfl (.cons piece .nil) halts_backslash with
    ⟨after, accesses, ran, stays, _⟩
  refine ⟨_, _, ran, ?_⟩
  intro within
  exact Nat.lt_irrefl _ (within.2 _ (stays.overrun rfl)).2

end Calls

end CJson
