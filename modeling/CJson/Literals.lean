import CJson.DecodeWatch
import CJson.Token
import CJson.Library.JsonString

/-!
# String literals and what the parser makes of them

The second pass of `parse_string` takes its input apart into pieces: plain bytes,
letters behind a backslash, and `\u` escapes.  A piece is decoded on its own, and
no piece is the beginning of another; so the input determines the pieces, and with
them what the pass reads, writes and returns.

The pass has no way to tell four bytes that are not digits from the digits of the
number 0.  Such an escape is a piece like any other, and it can swallow the first
half of an escape behind it.
-/

namespace CJson

open CString ParseBuffer JsonString

/-! ## Pieces -/

/-- What `parse_hex4` makes of four bytes. -/
def hex4 (digits : Bytes) : Nat := (code? digits).getD 0

/-- What one round of the second pass consumes, and what it writes.  The flag says
that some of four digits are none: the decoder takes such a digit for zero and goes
on. -/
inductive Piece : Bool -> Bytes -> Bytes -> Prop where
  | plain {byte : UInt8} (notBackslash : byte ≠ 0x5C) : Piece false [byte] [byte]
  | simple {letter byte : UInt8} (known : simpleEscape letter = some byte) :
      Piece false [0x5C, letter] [byte]
  | unicode {digits : Bytes} (four : digits.length = 4) (notHigh : ¬ IsHigh (hex4 digits))
      (notLow : ¬ IsLow (hex4 digits)) :
      Piece (code? digits).isNone (0x5C :: 0x75 :: digits) (String.utf8EncodeChar (.ofNat (hex4 digits)))
  | pair {first second : Bytes} (four : first.length = 4) (fourMore : second.length = 4)
      (isHigh : IsHigh (hex4 first)) (isLow : IsLow (hex4 second)) :
      Piece false (0x5C :: 0x75 :: (first ++ 0x5C :: 0x75 :: second))
        (String.utf8EncodeChar (joined (hex4 first) (hex4 second)))

/-- Piece after piece.  The flag says that one of them has the flag, and without it
the text is a literal. -/
inductive Pieces : Bool -> Bytes -> Bytes -> Prop where
  | nil : Pieces false [] []
  | cons {flag others : Bool} {piece text written output : Bytes} (first : Piece flag piece written)
      (rest : Pieces others text output) : Pieces (flag || others) (piece ++ text) (written ++ output)

/-- No piece stands at the beginning of a text: the second pass stops there and the
parse fails. -/
def Halts (text : Bytes) : Prop :=
  ∀ flag piece written rest, text = piece ++ rest -> ¬ Piece flag piece written

theorem Piece.ne_nil {flag : Bool} {piece written : Bytes} (isPiece : Piece flag piece written) : piece ≠ [] := by
  cases isPiece <;> exact List.cons_ne_nil _ _

/-- A backslash is never consumed on its own. -/
theorem Piece.two_le {flag : Bool} {piece written text others : Bytes} (isPiece : Piece flag piece written)
    (begins : 0x5C :: text = piece ++ others) : 2 ≤ piece.length := by
  cases isPiece with
  | plain notBackslash => exact absurd (List.cons.inj begins).1.symm notBackslash
  | simple _ => exact Nat.le_refl 2
  | unicode _ _ _ => exact Nat.le_add_left 2 _
  | pair _ _ _ _ => exact Nat.le_add_left 2 _

theorem high_not_low {code : Nat} (isHigh : IsHigh code) : ¬ IsLow code := by
  unfold IsHigh at isHigh
  unfold IsLow
  omega

/-- A text begins with one piece at most. -/
theorem Piece.unique {flag other : Bool} {piece another written others rest behind : Bytes}
    (first : Piece flag piece written) (second : Piece other another others)
    (same : piece ++ rest = another ++ behind) :
    flag = other ∧ piece = another ∧ written = others ∧ rest = behind := by
  have letterU : simpleEscape 0x75 = none := by decide
  cases first with
  | plain notBackslash =>
      cases second with
      | plain _ =>
          injection same with head tail
          exact ⟨rfl, by rw [head], by rw [head], tail⟩
      | simple _ => exact absurd (List.cons.inj same).1 notBackslash
      | unicode _ _ _ => exact absurd (List.cons.inj same).1 notBackslash
      | pair _ _ _ _ => exact absurd (List.cons.inj same).1 notBackslash
  | simple known =>
      cases second with
      | plain notBackslash => exact absurd (List.cons.inj same).1.symm notBackslash
      | simple alsoKnown =>
          injection same with _ tail
          injection tail with letter tail
          rw [letter, alsoKnown] at known
          injection known with byte
          exact ⟨rfl, by rw [letter], by rw [byte], tail⟩
      | unicode _ _ _ =>
          rw [(List.cons.inj (List.cons.inj same).2).1, letterU] at known
          cases known
      | pair _ _ _ _ =>
          rw [(List.cons.inj (List.cons.inj same).2).1, letterU] at known
          cases known
  | unicode four notHigh notLow =>
      cases second with
      | plain notBackslash => exact absurd (List.cons.inj same).1.symm notBackslash
      | simple alsoKnown =>
          rw [← (List.cons.inj (List.cons.inj same).2).1, letterU] at alsoKnown
          cases alsoKnown
      | unicode fourToo _ _ =>
          injection same with _ tail
          injection tail with _ tail
          rcases List.append_inj tail (four.trans fourToo.symm) with ⟨digits, tail⟩
          exact ⟨by rw [digits], by rw [digits], by rw [digits], tail⟩
      | pair fourToo _ isHigh _ =>
          injection same with _ tail
          injection tail with _ tail
          rw [List.append_eq, List.append_eq, List.append_assoc] at tail
          rw [(List.append_inj tail (four.trans fourToo.symm)).1] at notHigh
          exact absurd isHigh notHigh
  | pair four fourMore isHigh isLow =>
      cases second with
      | plain notBackslash => exact absurd (List.cons.inj same).1.symm notBackslash
      | simple alsoKnown =>
          rw [← (List.cons.inj (List.cons.inj same).2).1, letterU] at alsoKnown
          cases alsoKnown
      | unicode fourToo notHigh _ =>
          injection same with _ tail
          injection tail with _ tail
          rw [List.append_eq, List.append_eq, List.append_assoc] at tail
          rw [← (List.append_inj tail (four.trans fourToo.symm)).1] at notHigh
          exact absurd isHigh notHigh
      | pair fourToo fourMoreToo _ _ =>
          injection same with _ tail
          injection tail with _ tail
          rw [List.append_eq, List.append_eq, List.append_assoc, List.append_assoc] at tail
          rcases List.append_inj tail (four.trans fourToo.symm) with ⟨firstDigits, tail⟩
          injection tail with _ tail
          injection tail with _ tail
          rcases List.append_inj tail (fourMore.trans fourMoreToo.symm) with ⟨secondDigits, tail⟩
          exact ⟨rfl, by rw [firstDigits, secondDigits], by rw [firstDigits, secondDigits], tail⟩

/-- A text falls into pieces in one way, up to the place where no piece stands.  What
a literal decodes to is therefore well defined. -/
theorem Pieces.unique {flag other : Bool} {front another output others rest behind : Bytes}
    (first : Pieces flag front output) (halts : Halts rest) (second : Pieces other another others)
    (haltsToo : Halts behind) (same : front ++ rest = another ++ behind) :
    flag = other ∧ front = another ∧ output = others ∧ rest = behind := by
  induction first generalizing other another others with
  | nil =>
      cases second with
      | nil => exact ⟨rfl, rfl, rfl, same⟩
      | cons begins _ =>
          rw [List.nil_append, List.append_assoc] at same
          exact absurd begins (halts _ _ _ _ same)
  | cons starts _ ih =>
      cases second with
      | nil =>
          rw [List.nil_append, List.append_assoc] at same
          exact absurd starts (haltsToo _ _ _ _ same.symm)
      | cons begins more =>
          rw [List.append_assoc, List.append_assoc] at same
          rcases starts.unique begins same with ⟨flags, pieces, bytes, tail⟩
          rcases ih more tail with ⟨otherFlags, texts, outputs, tail⟩
          exact ⟨by rw [flags, otherFlags], by rw [pieces, texts], by rw [bytes, outputs], tail⟩

theorem Piece.positive {flag : Bool} {piece written : Bytes} (isPiece : Piece flag piece written) :
    0 < piece.length :=
  List.length_pos_of_ne_nil isPiece.ne_nil

theorem halts_nil : Halts [] := by
  intro flag piece written rest split isPiece
  exact isPiece.ne_nil (List.append_eq_nil_iff.mp split.symm).1

/-- A backslash needs something behind it. -/
theorem halts_backslash : Halts [0x5C] := by
  intro flag piece written rest split isPiece
  cases isPiece with
  | plain notBackslash => exact notBackslash (List.cons.inj split).1.symm
  | simple _ => cases split
  | unicode _ _ _ => cases split
  | pair _ _ _ _ => cases split

/-! ## Characters -/

/-- The bytes of `utf16_literal_to_utf8` behind the first. -/
theorem continuation_eq (codepoint : Nat) :
    (UInt8.ofNat codepoint ||| 0x80) &&& 0xBF = UInt8.ofNat (codepoint % 0x40 + 0x80) := by
  have bytes : ∀ byte < 256, (UInt8.ofNat byte ||| 0x80) &&& 0xBF = UInt8.ofNat (byte % 0x40 + 0x80) := by
    decide +kernel
  have small := bytes (codepoint % 256) (Nat.mod_lt _ (by decide))
  rw [UInt8.ofNat_mod_size, Nat.mod_mod_of_dvd _ (by decide)] at small
  exact small

/-- The first byte, with a mark that leaves room for its bits. -/
theorem leading_eq {mark room codepoint : Nat} (known : (mark, room) ∈ [(0xC0, 0x20), (0xE0, 0x10), (0xF0, 0x08)])
    (small : codepoint < room) :
    (UInt8.ofNat codepoint ||| UInt8.ofNat mark) &&& 0xFF = UInt8.ofNat (codepoint % room + mark) := by
  have bytes : ∀ entry ∈ [(0xC0, 0x20), (0xE0, 0x10), (0xF0, 0x08)], ∀ byte < entry.2,
      (UInt8.ofNat byte ||| UInt8.ofNat entry.1) &&& 0xFF = UInt8.ofNat (byte % entry.2 + entry.1) := by
    decide +kernel
  exact bytes _ known _ small

/-- A character is encoded as UTF-8. -/
theorem encodeCodepoint_toNat (character : Char) :
    encodeCodepoint character.toNat = some (String.utf8EncodeChar character) := by
  have valid : character.toNat < 0x110000 := by
    rcases character.valid with low | high
    · exact Nat.lt_trans low (by decide)
    · exact high.2
  unfold encodeCodepoint String.utf8EncodeChar
  rw [Char.toNat_val]
  generalize character.toNat = code at valid
  have shift : ∀ code : Nat, code >>> 6 = code / 64 := fun code => Nat.shiftRight_eq_div_pow code 6
  dsimp only
  by_cases one : code < 0x80
  · have plain : UInt8.ofNat code &&& 0x7F = UInt8.ofNat code := by
      have bytes : ∀ byte < 0x80, UInt8.ofNat byte &&& 0x7F = UInt8.ofNat byte := by
        decide +kernel
      exact bytes code one
    rw [if_pos one, if_pos (show code ≤ 0x7F by omega), ← plain]
    rfl
  rw [if_neg one, if_neg (show ¬ code ≤ 0x7F by omega)]
  by_cases two : code < 0x800
  · have first := @leading_eq 0xC0 0x20 (code / 64) (by decide) (by omega)
    rw [if_pos two, if_pos (show code ≤ 0x7FF by omega), ← first, ← continuation_eq, ← shift]
    rfl
  rw [if_neg two, if_neg (show ¬ code ≤ 0x7FF by omega)]
  by_cases three : code < 0x10000
  · have first := @leading_eq 0xE0 0x10 (code / 4096) (by decide) (by omega)
    have second := continuation_eq (code / 64)
    rw [if_pos three, if_pos (show code ≤ 0xFFFF by omega), ← first, ← second, ← continuation_eq code,
      show code / 4096 = code / 64 / 64 by omega, ← shift code, ← shift]
    rfl
  · have first := @leading_eq 0xF0 0x08 (code / 262144) (by decide) (by omega)
    have second := continuation_eq (code / 4096)
    have third := continuation_eq (code / 64)
    rw [if_neg three, if_pos (show code ≤ 0x10FFFF by omega), if_neg (show ¬ code ≤ 0xFFFF by omega), ← first,
      ← second, ← third, ← continuation_eq code, show code / 262144 = code / 64 / 64 / 64 by omega,
      show code / 4096 = code / 64 / 64 by omega, ← shift code, ← shift, ← shift]
    rfl

/-- The bit operations that join a pair. -/
theorem joined_eq {high low : Nat} (isHigh : IsHigh high) (isLow : IsLow low) :
    (joined high low).toNat = (0x10000 + ((high &&& 0x3FF) <<< 10)) ||| (low &&& 0x3FF) := by
  rcases isHigh with ⟨highLeast, highMost⟩
  rcases isLow with ⟨lowLeast, lowMost⟩
  rw [joined_toNat ⟨highLeast, highMost⟩ ⟨lowLeast, lowMost⟩]
  have highBits : high &&& 0x3FF = high - 0xD800 := by
    rw [Nat.and_two_pow_sub_one_eq_mod high 10]
    omega
  have lowBits : low &&& 0x3FF = low - 0xDC00 := by
    rw [Nat.and_two_pow_sub_one_eq_mod low 10]
    omega
  have apart := @Nat.two_pow_add_eq_or_of_lt 10 (low - 0xDC00) (by omega) (0x40 + (high - 0xD800))
  rw [highBits, lowBits, Nat.shiftLeft_eq, show 0x10000 + (high - 0xD800) * 2 ^ 10 =
    2 ^ 10 * (0x40 + (high - 0xD800)) by omega, ← apart]
  omega

theorem hex4_lt (digits : Bytes) : hex4 digits < 0x10000 := by
  rw [hex4]
  cases read : code? digits with
  | none => exact Nat.zero_lt_succ _
  | some code => exact code?_lt read

theorem encodeCodepoint_single {digits : Bytes} (notHigh : ¬ IsHigh (hex4 digits))
    (notLow : ¬ IsLow (hex4 digits)) :
    encodeCodepoint (hex4 digits) = some (String.utf8EncodeChar (.ofNat (hex4 digits))) := by
  rw [← encodeCodepoint_toNat, toNat_of_single (hex4_lt digits) notHigh notLow]

/-! ## What one round touches -/

/-- What is touched beyond the bytes before lies in two ranges: the reads in the text
of the piece, and the writes right behind what has been written before. -/
structure Touched (before after : Accesses) (first last start stop : Nat) : Prop where
  reads : ∀ index ∈ after.reads, index ∈ before.reads ∨ first ≤ index ∧ index < last
  writes : ∀ offset ∈ after.writes, offset ∈ before.writes ∨ start ≤ offset ∧ offset < stop

namespace Touched

variable {before middle after : Accesses} {first last start stop : Nat}

theorem refl (accesses : Accesses) : Touched accesses accesses first last start stop :=
  ⟨fun _ => Or.inl, fun _ => Or.inl⟩

theorem trans (touched : Touched before middle first last start stop)
    (more : Touched middle after first last start stop) : Touched before after first last start stop := by
  constructor
  · intro index isRead
    exact (more.reads index isRead).elim (touched.reads index) Or.inr
  · intro offset isWritten
    exact (more.writes offset isWritten).elim (touched.writes offset) Or.inr

/-- Larger ranges. -/
theorem mono {lower upper low high : Nat} (touched : Touched before after first last start stop)
    (least : lower ≤ first) (most : last ≤ upper) (leastWrite : low ≤ start) (mostWrite : stop ≤ high) :
    Touched before after lower upper low high := by
  constructor
  · intro index isRead
    exact (touched.reads index isRead).imp_right
      (fun inside => ⟨Nat.le_trans least inside.1, Nat.lt_of_lt_of_le inside.2 most⟩)
  · intro offset isWritten
    exact (touched.writes offset isWritten).imp_right
      (fun inside => ⟨Nat.le_trans leastWrite inside.1, Nat.lt_of_lt_of_le inside.2 mostWrite⟩)

theorem read (touched : Touched before after first last start stop) {index : Nat} (least : first ≤ index)
    (most : index < last) : Touched before (after.read index) first last start stop := by
  refine ⟨?_, touched.writes⟩
  intro other isRead
  rcases List.mem_append.mp isRead with earlier | new
  · exact touched.reads other earlier
  · exact Or.inr (List.mem_singleton.mp new ▸ ⟨least, most⟩)

theorem write (touched : Touched before after first last start stop) {offset : Nat} (least : start ≤ offset)
    (most : offset < stop) : Touched before (after.write offset) first last start stop := by
  refine ⟨touched.reads, ?_⟩
  intro other isWritten
  rcases List.mem_append.mp isWritten with earlier | new
  · exact touched.writes other earlier
  · exact Or.inr (List.mem_singleton.mp new ▸ ⟨least, most⟩)

theorem fill (touched : Touched before after first last start stop) {offset count : Nat} (least : start ≤ offset)
    (most : offset + count ≤ stop) : Touched before (after.fill offset count) first last start stop := by
  induction count generalizing after with
  | zero => exact touched
  | succ count ih => exact ih (touched.write (by omega) (by omega)) (by omega)

end Touched

section Rounds

variable {buffer : ParseBuffer} {start : Nat}

/-- The byte behind some others. -/
theorem read_behind {front rest : Bytes} {byte : UInt8}
    (split : buffer.content.drop start = front ++ byte :: rest) {index : Nat}
    (position : index = start + front.length) : buffer.read index = .ok byte := by
  rw [read_eq_ok, position, ← List.getElem?_drop, split, List.getElem?_append_right (Nat.le_refl _), Nat.sub_self]
  rfl

/-- Four bytes are read until one of them is no digit, and no byte behind them. -/
theorem parseHex4Watched_eq {digits rest : Bytes} (four : digits.length = 4)
    (split : buffer.content.drop start = digits ++ rest) (accesses : Accesses) :
    ∃ after, parseHex4Watched buffer start accesses = .ok (hex4 digits, after) ∧
      ∀ low high, Touched accesses after start (start + 4) low high := by
  rcases List.length_eq_four.mp four with ⟨a, b, c, d, rfl⟩
  have readA : buffer.read start = .ok a := @read_behind _ _ [] (b :: c :: d :: rest) a split _ rfl
  have readB : buffer.read (start + 1) = .ok b := @read_behind _ _ [a] (c :: d :: rest) b split _ rfl
  have readC : buffer.read (start + 1 + 1) = .ok c := @read_behind _ _ [a, b] (d :: rest) c split _ rfl
  have readD : buffer.read (start + 1 + 1 + 1) = .ok d := @read_behind _ _ [a, b, c] rest d split _ rfl
  have one : ∀ low high, Touched accesses (accesses.read start) start (start + 4) low high :=
    fun low high => (Touched.refl _).read (by omega) (by omega)
  have two : ∀ low high, Touched accesses ((accesses.read start).read (start + 1)) start (start + 4) low high :=
    fun low high => (one low high).read (by omega) (by omega)
  have three : ∀ low high, Touched accesses (((accesses.read start).read (start + 1)).read (start + 1 + 1))
      start (start + 4) low high :=
    fun low high => (two low high).read (by omega) (by omega)
  have all : ∀ low high, Touched accesses ((((accesses.read start).read (start + 1)).read (start + 1 + 1)).read
      (start + 1 + 1 + 1)) start (start + 4) low high :=
    fun low high => (three low high).read (by omega) (by omega)
  have shift : ∀ number : Nat, number <<< 4 = number * 16 := fun number => Nat.shiftLeft_eq number 4
  have digits : ∀ byte, hexDigit byte = hex? byte := fun _ => rfl
  unfold hex4 parseHex4Watched code?
  dsimp only
  rw [parseHexLoopWatched, readA, Except.ok_bind, digits]
  cases hex? a with
  | none => exact ⟨_, rfl, one⟩
  | some first =>
      dsimp only
      rw [parseHexLoopWatched, readB, Except.ok_bind, digits]
      cases hex? b with
      | none => exact ⟨_, rfl, two⟩
      | some second =>
          dsimp only
          rw [parseHexLoopWatched, readC, Except.ok_bind, digits]
          cases hex? c with
          | none => exact ⟨_, rfl, three⟩
          | some third =>
              dsimp only
              rw [parseHexLoopWatched, readD, Except.ok_bind, digits]
              cases hex? d with
              | none => exact ⟨_, rfl, all⟩
              | some fourth =>
                  refine ⟨_, ?_, all⟩
                  dsimp only
                  rw [parseHexLoopWatched, if_pos rfl, if_neg (by decide), if_neg (by decide),
                    if_neg (by decide), shift, shift, shift, Nat.zero_add]
                  rfl

/-- Behind `\u`, what is no piece is half a pair: four digits that are a surrogate
without a partner.  There the pass stops. -/
theorem halts_of_unicode {more : Bytes}
    (single : ∀ digits others, more = digits ++ others -> digits.length = 4 ->
      IsHigh (hex4 digits) ∨ IsLow (hex4 digits))
    (double : ∀ first second others, more = first ++ 0x5C :: 0x75 :: (second ++ others) -> first.length = 4 ->
      second.length = 4 -> IsHigh (hex4 first) -> ¬ IsLow (hex4 second)) :
    Halts (0x5C :: 0x75 :: more) := by
  intro flag piece written others split isPiece
  cases isPiece with
  | plain notBackslash => exact notBackslash (List.cons.inj split).1.symm
  | simple known =>
      have letter : simpleEscape 0x75 = none := by decide
      rw [← (List.cons.inj (List.cons.inj split).2).1, letter] at known
      cases known
  | unicode four notHigh notLow =>
      exact (single _ _ (List.cons.inj (List.cons.inj split).2).2 four).elim notHigh notLow
  | pair four fourMore isHigh isLow =>
      have tail := (List.cons.inj (List.cons.inj split).2).2
      rw [List.append_eq, List.append_assoc] at tail
      exact double _ _ _ tail four fourMore isHigh isLow

/-- An escape that is cut off before its fourth digit is no piece. -/
theorem halts_of_short {more : Bytes} (short : more.length < 4) : Halts (0x5C :: 0x75 :: more) := by
  apply halts_of_unicode
  · intro digits others whole four
    have lengths := congrArg List.length whole
    rw [List.length_append] at lengths
    omega
  · intro first second others whole four
    have lengths := congrArg List.length whole
    rw [List.length_append] at lengths
    omega

/-- Nor is the second half of a pair alone. -/
theorem halts_of_low {digits others : Bytes} (four : digits.length = 4) (low : IsLow (hex4 digits)) :
    Halts (0x5C :: 0x75 :: (digits ++ others)) := by
  have sameDigits : ∀ {other more : Bytes}, digits ++ others = other ++ more -> other.length = 4 -> digits = other :=
    fun whole fourToo => (List.append_inj whole (four.trans fourToo.symm)).1
  apply halts_of_unicode
  · intro other more whole fourToo
    exact Or.inr (sameDigits whole fourToo ▸ low)
  · intro other second more whole fourToo _ isHigh
    exact absurd low (high_not_low (sameDigits whole fourToo ▸ isHigh))

/-- Nor is the first half without the second one behind it. -/
theorem halts_of_unpaired {digits others : Bytes} (four : digits.length = 4) (high : IsHigh (hex4 digits))
    (none : ∀ second more, others = 0x5C :: 0x75 :: (second ++ more) -> second.length = 4 ->
      ¬ IsLow (hex4 second)) : Halts (0x5C :: 0x75 :: (digits ++ others)) := by
  apply halts_of_unicode
  · intro other more whole fourToo
    exact Or.inl ((List.append_inj whole (four.trans fourToo.symm)).1 ▸ high)
  · intro other second more whole fourToo fourMore _
    exact none second more (List.append_inj whole (four.trans fourToo.symm)).2 fourMore

/-- The first four digits decide, unless they are the first half of a pair.  A second
half on its own is refused; the code reads no further than the digits. -/
theorem utf16CodepointWatched_alone {digits rest : Bytes} {inputEnd : Nat} (four : digits.length = 4)
    (behind : buffer.content.drop (start + 2) = digits ++ rest) (room : start + 6 ≤ inputEnd)
    (notHigh : ¬ IsHigh (hex4 digits)) (accesses : Accesses) :
    ∃ after, utf16CodepointWatched buffer start inputEnd accesses =
        .ok (if IsLow (hex4 digits) then none else some (hex4 digits, 6), after) ∧
      ∀ low high, Touched accesses after start (start + 6) low high := by
  rcases parseHex4Watched_eq four behind accesses with ⟨after, read, touched⟩
  refine ⟨after, ?_, fun low high => (touched low high).mono (by omega) (by omega) le_rfl le_rfl⟩
  rw [utf16CodepointWatched, if_neg (by omega), read, Except.ok_bind]
  dsimp only
  by_cases low : 0xDC00 ≤ hex4 digits ∧ hex4 digits ≤ 0xDFFF
  · rw [if_pos low, if_pos (show IsLow (hex4 digits) from low)]
  · rw [if_neg low, if_neg (show ¬ IsLow (hex4 digits) from low)]
    exact if_neg notHigh

/-- No escape stands behind the first half of a pair, so there is no code point.  The
code finds that out by the length or by the two bytes behind the digits, without a
read beyond the end. -/
theorem utf16CodepointWatched_unpaired {digits others rest : Bytes} {inputEnd : Nat} (four : digits.length = 4)
    (behind : buffer.content.drop (start + 2) = digits ++ (others ++ 0x22 :: rest))
    (ends : inputEnd = start + 6 + others.length) (high : IsHigh (hex4 digits))
    (none : ∀ second more, others = 0x5C :: 0x75 :: (second ++ more) -> second.length ≠ 4) (accesses : Accesses) :
    ∃ after, utf16CodepointWatched buffer start inputEnd accesses = .ok (.none, after) ∧
      ∀ low high, Touched accesses after start inputEnd low high := by
  rcases parseHex4Watched_eq four behind accesses with ⟨first, read, touched⟩
  have inside : ∀ low high, Touched accesses first start inputEnd low high :=
    fun low high => (touched low high).mono (by omega) (by omega) le_rfl le_rfl
  rw [utf16CodepointWatched, if_neg (by omega), read, Except.ok_bind]
  have notLow : ¬ (0xDC00 ≤ hex4 digits ∧ hex4 digits ≤ 0xDFFF) := high_not_low high
  dsimp only
  rw [if_neg notLow, if_pos (show 0xD800 ≤ hex4 digits ∧ hex4 digits ≤ 0xDBFF from high)]
  by_cases shortPair : inputEnd - (start + 6) < 6
  · exact ⟨first, if_pos shortPair, inside⟩
  rw [if_neg shortPair]
  rcases others with _ | ⟨backslash, _ | ⟨letter, more⟩⟩
  · rw [List.length_nil] at ends
    omega
  · rw [List.length_singleton] at ends
    omega
  rw [List.length_cons, List.length_cons] at ends
  have behindFirst : buffer.content.drop (start + 6) = backslash :: letter :: (more ++ 0x22 :: rest) := by
    rw [show start + 6 = start + 2 + digits.length by omega, ← List.drop_drop, behind, List.drop_left]
    rfl
  have atBackslash := getElem?_of_drop behindFirst
  have atLetter := getElem?_of_drop atBackslash.2
  rw [read_eq_ok.mpr atBackslash.1, Except.ok_bind]
  have insideBackslash := fun low high => @Touched.read _ _ _ _ _ _ (inside low high) (start + 6)
    (by omega) (by omega)
  by_cases isBackslash : backslash ≠ 0x5C
  · exact ⟨_, if_pos isBackslash, insideBackslash⟩
  rw [if_neg isBackslash, read_eq_ok.mpr atLetter.1, Except.ok_bind]
  have insideLetter := fun low high =>
    @Touched.read _ _ _ _ _ _ (insideBackslash low high) (start + 6 + 1) (by omega) (by omega)
  by_cases isLetter : letter ≠ 0x75
  · exact ⟨_, if_pos isLetter, insideLetter⟩
  · -- then there are four digits, since the pair is not short
    have digitsThere : (more.take 4).length = 4 := List.length_take_of_le (by omega)
    refine absurd digitsThere (none (more.take 4) (more.drop 4) ?_)
    rw [List.take_append_drop, not_not.mp isBackslash, not_not.mp isLetter]

/-- The first half of a pair, and an escape behind it.  The two are a code point if
the escape is a second half, and nothing otherwise. -/
theorem utf16CodepointWatched_pair {digits second others rest : Bytes} {inputEnd : Nat} (four : digits.length = 4)
    (fourMore : second.length = 4)
    (behind : buffer.content.drop (start + 2) = digits ++ (0x5C :: 0x75 :: (second ++ (others ++ 0x22 :: rest))))
    (room : start + 12 ≤ inputEnd) (high : IsHigh (hex4 digits)) (accesses : Accesses) :
    ∃ after, utf16CodepointWatched buffer start inputEnd accesses =
        .ok (if IsLow (hex4 second) then some ((joined (hex4 digits) (hex4 second)).toNat, 12) else none, after) ∧
      ∀ low high, Touched accesses after start (start + 12) low high := by
  rcases parseHex4Watched_eq four behind accesses with ⟨first, readFirst, touchedFirst⟩
  have behindFirst : buffer.content.drop (start + 6) = 0x5C :: 0x75 :: (second ++ (others ++ 0x22 :: rest)) := by
    rw [show start + 6 = start + 2 + digits.length by omega, ← List.drop_drop, behind, List.drop_left]
  have atBackslash := getElem?_of_drop behindFirst
  have atLetter := getElem?_of_drop atBackslash.2
  rcases parseHex4Watched_eq fourMore atLetter.2 ((first.read (start + 6)).read (start + 6 + 1)) with
    ⟨both, readSecond, touchedSecond⟩
  refine ⟨both, ?_, fun low high => ?_⟩
  · have notLow : ¬ (0xDC00 ≤ hex4 digits ∧ hex4 digits ≤ 0xDFFF) := high_not_low high
    rw [utf16CodepointWatched, if_neg (by omega), readFirst, Except.ok_bind]
    dsimp only
    rw [if_neg notLow, if_pos (show 0xD800 ≤ hex4 digits ∧ hex4 digits ≤ 0xDBFF from high), if_neg (by omega),
      read_eq_ok.mpr atBackslash.1, Except.ok_bind, if_neg (not_not.mpr rfl), read_eq_ok.mpr atLetter.1,
      Except.ok_bind, if_neg (not_not.mpr rfl), readSecond, Except.ok_bind]
    dsimp only
    by_cases isLow : 0xDC00 ≤ hex4 second ∧ hex4 second ≤ 0xDFFF
    · rw [if_neg (not_not.mpr isLow), if_pos (show IsLow (hex4 second) from isLow), joined_eq high isLow]
    · rw [if_pos isLow, if_neg (show ¬ IsLow (hex4 second) from isLow)]
  · have firstInside := (touchedFirst low high).mono (show start ≤ start + 2 by omega)
      (show start + 2 + 4 ≤ start + 12 by omega) le_rfl le_rfl
    have secondInside := (touchedSecond low high).mono (show start ≤ start + 6 + 2 by omega)
      (show start + 6 + 2 + 4 ≤ start + 12 by omega) le_rfl le_rfl
    have between : Touched accesses ((first.read (start + 6)).read (start + 6 + 1)) start (start + 12) low high :=
      (firstInside.read (by omega) (by omega)).read (by omega) (by omega)
    exact between.trans secondInside

/-- A `\u` escape is a piece, alone or with the one behind it, or the pass stops.
Reads stay in the escape, and writes in the bytes that it decodes to; this is
assembled from the cases of the first four digits. -/
theorem utf16LiteralToUtf8Watched_eq {more rest : Bytes} {inputEnd : Nat}
    (split : buffer.content.drop start = 0x5C :: 0x75 :: more ++ 0x22 :: rest)
    (ends : inputEnd = start + (more.length + 2)) (outputPointer : Nat) (accesses : Accesses) :
    (∃ flag piece written others after, 0x5C :: 0x75 :: more = piece ++ others ∧ Piece flag piece written ∧
      utf16LiteralToUtf8Watched buffer start inputEnd outputPointer accesses =
        .ok ((piece.length, written), after) ∧
      Touched accesses after start (start + piece.length) outputPointer (outputPointer + written.length)) ∨
    (Halts (0x5C :: 0x75 :: more) ∧ ∃ after,
      utf16LiteralToUtf8Watched buffer start inputEnd outputPointer accesses = .ok ((0, []), after) ∧
      Touched accesses after start inputEnd outputPointer outputPointer) := by
  by_cases short : more.length < 4
  · refine Or.inr ⟨halts_of_short short, accesses, ?_, Touched.refl _⟩
    rw [utf16LiteralToUtf8Watched, utf16CodepointWatched, if_pos (by omega)]
    rfl
  rcases (⟨more.take 4, more.drop 4, (List.take_append_drop 4 more).symm, List.length_take_of_le (by omega)⟩ :
    ∃ digits others, more = digits ++ others ∧ digits.length = 4) with ⟨digits, others, rfl, four⟩
  have behind : buffer.content.drop (start + 2) = digits ++ (others ++ 0x22 :: rest) := by
    rw [← List.drop_drop, split, ← List.append_assoc]
    rfl
  have total : (digits ++ others).length = 4 + others.length := by rw [List.length_append, four]
  -- a code point that is found is written
  have encoded : ∀ {codepoint sequenceLength : Nat} {bytes : Bytes} {after : Accesses},
      utf16CodepointWatched buffer start inputEnd accesses = .ok (some (codepoint, sequenceLength), after) ->
      encodeCodepoint codepoint = some bytes ->
      utf16LiteralToUtf8Watched buffer start inputEnd outputPointer accesses =
        .ok ((sequenceLength, bytes), after.fill outputPointer bytes.length) := by
    intro codepoint sequenceLength bytes after found encodes
    rw [utf16LiteralToUtf8Watched, found, Except.ok_bind]
    dsimp only
    rw [encodes]
  have refused : ∀ {after : Accesses}, utf16CodepointWatched buffer start inputEnd accesses = .ok (none, after) ->
      utf16LiteralToUtf8Watched buffer start inputEnd outputPointer accesses = .ok ((0, []), after) := by
    intro after found
    rw [utf16LiteralToUtf8Watched, found, Except.ok_bind]
  by_cases high : IsHigh (hex4 digits)
  · by_cases paired : ∃ second more, others = 0x5C :: 0x75 :: (second ++ more) ∧ second.length = 4
    · rcases paired with ⟨second, others, rfl, fourMore⟩
      have size : (0x5C :: 0x75 :: (digits ++ 0x5C :: 0x75 :: second)).length = 12 := by
        rw [List.length_cons, List.length_cons, List.length_append, List.length_cons,
          List.length_cons, four, fourMore]
      have lengths : (0x5C :: 0x75 :: (second ++ others)).length = 6 + others.length := by
        rw [List.length_cons, List.length_cons, List.length_append, fourMore]
        omega
      rcases utf16CodepointWatched_pair four fourMore
        (show _ = digits ++ (0x5C :: 0x75 :: (second ++ (others ++ 0x22 :: rest))) by
          rw [behind, List.cons_append, List.cons_append, List.append_assoc])
        (show start + 12 ≤ inputEnd by omega) high accesses with ⟨after, found, touched⟩
      by_cases isLow : IsLow (hex4 second)
      · rw [if_pos isLow] at found
        have wrote := encoded found (encodeCodepoint_toNat _)
        have filled := @Touched.fill _ _ _ _ _ _ (touched outputPointer _) outputPointer
          (String.utf8EncodeChar (joined (hex4 digits) (hex4 second))).length le_rfl le_rfl
        rw [← size] at wrote filled
        refine Or.inl ⟨_, _, _, others, _, ?_, .pair four fourMore high isLow, wrote, filled⟩
        rw [List.cons_append, List.cons_append, List.append_assoc]
        rfl
      · rw [if_neg isLow] at found
        refine Or.inr ⟨halts_of_unpaired four high ?_, after, refused found,
          (touched _ _).mono le_rfl (by omega) le_rfl le_rfl⟩
        intro other more whole fourToo
        rw [← (List.append_inj (List.cons.inj (List.cons.inj whole).2).2 (fourMore.trans fourToo.symm)).1]
        exact isLow
    · have none : ∀ second more, others = 0x5C :: 0x75 :: (second ++ more) -> second.length ≠ 4 :=
        fun second more whole fourMore => paired ⟨second, more, whole, fourMore⟩
      have last : inputEnd = start + 6 + others.length := by omega
      rcases utf16CodepointWatched_unpaired four behind last high none accesses with ⟨after, found, touched⟩
      refine Or.inr ⟨halts_of_unpaired four high ?_, after, refused found, touched _ _⟩
      exact fun second more whole fourMore => absurd fourMore (none second more whole)
  · rcases utf16CodepointWatched_alone four behind (show start + 6 ≤ inputEnd by omega) high accesses with
      ⟨after, found, touched⟩
    by_cases low : IsLow (hex4 digits)
    · rw [if_pos low] at found
      exact Or.inr ⟨halts_of_low four low, after, refused found, (touched _ _).mono le_rfl (by omega) le_rfl le_rfl⟩
    · rw [if_neg low] at found
      have size : (0x5C :: 0x75 :: digits).length = 6 := by rw [List.length_cons, List.length_cons, four]
      have wrote := encoded found (encodeCodepoint_single high low)
      have filled := @Touched.fill _ _ _ _ _ _ (touched outputPointer _) outputPointer
        (String.utf8EncodeChar (.ofNat (hex4 digits))).length le_rfl le_rfl
      rw [← size] at wrote filled
      exact Or.inl ⟨_, _, _, others, _, rfl, .unicode four high low, wrote, filled⟩

/-- One round of the second pass, with something left in front of the closing quote:
it consumes a piece, or one backslash and the quote, or it stops. -/
theorem decodeStringWatched_round {text rest : Bytes} {inputEnd : Nat}
    (split : buffer.content.drop start = text ++ 0x22 :: rest) (some : text ≠ [])
    (ends : inputEnd = start + text.length) (fuel : Nat) (output : Bytes) (accesses : Accesses) :
    (∃ flag piece written others after, text = piece ++ others ∧ Piece flag piece written ∧
      decodeStringWatched buffer inputEnd (fuel + 1) start output accesses =
        decodeStringWatched buffer inputEnd fuel (start + piece.length) (output ++ written) after ∧
      Touched accesses after start (start + piece.length) output.length (output.length + written.length)) ∨
    (text = [0x5C] ∧ decodeStringWatched buffer inputEnd (fuel + 1) start output accesses =
      decodeStringWatched buffer inputEnd fuel (inputEnd + 1) (output ++ [0x22])
        (((accesses.read start).read inputEnd).write output.length)) ∨
    (text ≠ [0x5C] ∧ Halts text ∧ ∃ after,
      decodeStringWatched buffer inputEnd (fuel + 1) start output accesses = .ok ((start, output), after) ∧
      Touched accesses after start inputEnd output.length output.length) := by
  rcases text with _ | ⟨byte, tail⟩
  · exact absurd rfl some
  rw [List.length_cons] at ends
  have first := getElem?_of_drop split
  rw [decodeStringWatched, if_neg (by omega), read_eq_ok.mpr first.1, Except.ok_bind]
  dsimp only
  by_cases plain : byte ≠ 0x5C
  · rw [if_pos plain]
    refine Or.inl ⟨_, _, _, tail, _, rfl, .plain plain, rfl, ?_⟩
    exact ((Touched.refl _).read (Nat.le_refl _) (Nat.lt_succ_self _)).write (Nat.le_refl _) (Nat.lt_succ_self _)
  rw [if_neg plain]
  have backslash := not_not.mp plain
  rcases tail with _ | ⟨letter, more⟩
  · -- the letter is the closing quote
    have quote : buffer.read (start + 1) = .ok 0x22 := read_eq_ok.mpr (getElem?_of_drop first.2).1
    have known : simpleEscape 0x22 = .some 0x22 := by decide
    rw [List.length_nil] at ends
    rw [quote, Except.ok_bind, known]
    refine Or.inr (Or.inl ⟨by rw [backslash], ?_⟩)
    rw [ends]
  have second := getElem?_of_drop first.2
  rw [List.length_cons] at ends
  rw [read_eq_ok.mpr second.1, Except.ok_bind]
  have lettersRead : ∀ low high,
      Touched accesses ((accesses.read start).read (start + 1)) start (start + 2) low high :=
    fun low high => ((Touched.refl _).read (by omega) (by omega)).read (by omega) (by omega)
  cases known : simpleEscape letter with
  | some decoded =>
      refine Or.inl ⟨_, _, _, more, _, ?_, .simple known, rfl, ?_⟩
      · rw [backslash]
        rfl
      · exact (lettersRead _ _).write (Nat.le_refl _) (Nat.lt_succ_self _)
  | none =>
      dsimp only
      by_cases unicode : letter = 0x75
      · rw [if_pos unicode]
        rw [backslash, unicode] at split
        rcases utf16LiteralToUtf8Watched_eq split (by omega) output.length
          ((accesses.read start).read (start + 1)) with
          ⟨flag, piece, written, others, after, whole, isPiece, converted, touched⟩ | ⟨halts, after, failed, touched⟩
        · have long := isPiece.two_le whole
          refine Or.inl ⟨flag, piece, written, others, after, ?_, isPiece, ?_, ?_⟩
          · rw [backslash, unicode, whole]
          · rw [converted, Except.ok_bind]
            exact if_neg (show piece.length ≠ 0 by omega)
          · exact ((lettersRead _ _).mono (Nat.le_refl _) (by omega) (Nat.le_refl _) (Nat.le_refl _)).trans touched
        · refine Or.inr (Or.inr ⟨?_, ?_, after, ?_, ?_⟩)
          · intro single
            cases single
          · rw [backslash, unicode]
            exact halts
          · rw [failed, Except.ok_bind]
            rfl
          · exact ((lettersRead _ _).mono (Nat.le_refl _) (by omega) (Nat.le_refl _) (Nat.le_refl _)).trans touched
      · rw [if_neg unicode]
        refine Or.inr (Or.inr ⟨?_, ?_, _, rfl, ?_⟩)
        · intro single
          cases single
        · intro flag piece written others whole isPiece
          cases isPiece with
          | plain notBackslash => exact notBackslash ((List.cons.inj whole).1 ▸ backslash)
          | simple alsoKnown =>
              rw [← (List.cons.inj (List.cons.inj whole).2).1, known] at alsoKnown
              cases alsoKnown
          | unicode _ _ _ => exact unicode (List.cons.inj (List.cons.inj whole).2).1
          | pair _ _ _ _ => exact unicode (List.cons.inj (List.cons.inj whole).2).1
        · exact (lettersRead _ _).mono (Nat.le_refl _) (by omega) (Nat.le_refl _) (Nat.le_refl _)

/-- What is read behind a backslash at the very end. -/
def behindBackslash (tail : Bytes) : Bytes := if tail = [0x5C] then [0x22] else []

/-- The second pass takes the pieces of the literal.  If a single backslash is left it
reads the closing quote as well; if anything else is left it stops there. -/
theorem decodeStringWatched_eq {text rest : Bytes} {inputEnd fuel : Nat}
    (split : buffer.content.drop start = text ++ 0x22 :: rest) (ends : inputEnd = start + text.length)
    (enough : text.length < fuel) (output : Bytes) (accesses : Accesses) :
    ∃ flag front tail written after, text = front ++ tail ∧ Pieces flag front written ∧ Halts tail ∧
      decodeStringWatched buffer inputEnd fuel start output accesses =
        .ok ((if tail = [0x5C] then inputEnd + 1 else start + front.length,
          output ++ (written ++ behindBackslash tail)), after) ∧
      Touched accesses after start (inputEnd + (behindBackslash tail).length) output.length
        (output.length + (written ++ behindBackslash tail).length) ∧
      (tail = [0x5C] -> inputEnd ∈ after.reads) := by
  induction fuel generalizing start text output accesses with
  | zero => exact absurd enough (Nat.not_lt_zero _)
  | succ fuel ih =>
      by_cases empty : text = []
      · subst empty
        refine ⟨false, [], [], [], accesses, rfl, .nil, halts_nil, ?_, Touched.refl _,
          fun impossible => by cases impossible⟩
        rw [List.length_nil, Nat.add_zero] at ends
        rw [decodeStringWatched, if_pos (Nat.le_of_eq ends)]
        simp [behindBackslash]
      · rcases decodeStringWatched_round split empty ends fuel output accesses with
          ⟨flag, piece, written, others, after, rfl, isPiece, run, touched⟩ | ⟨rfl, run⟩ |
          ⟨long, halts, after, run, touched⟩
        · have behind : buffer.content.drop (start + piece.length) = others ++ 0x22 :: rest := by
            rw [← List.drop_drop, split, List.append_assoc, List.drop_left]
          have positive := isPiece.positive
          rw [List.length_append] at ends enough
          rcases ih behind (by omega) (by omega) (output ++ written) after with
            ⟨others, front, tail, more, last, rfl, pieces, halts, finished, touchedMore, overrun⟩
          refine ⟨flag || others, piece ++ front, tail, written ++ more, last, (List.append_assoc _ _ _).symm,
            .cons isPiece pieces, halts, ?_, ?_, overrun⟩
          · rw [run, finished, List.length_append, Nat.add_assoc, List.append_assoc, List.append_assoc]
          · have lengths : (output ++ written).length = output.length + written.length := List.length_append
            have total : (written ++ more ++ behindBackslash tail).length =
                written.length + (more ++ behindBackslash tail).length := by
              rw [List.append_assoc, List.length_append]
            exact (touched.mono (Nat.le_refl _) (by omega) (Nat.le_refl _) (by omega)).trans
              (touchedMore.mono (by omega) (Nat.le_refl _) (by omega) (by omega))
        · cases fuel with
          | zero => exact absurd enough (Nat.lt_irrefl 1)
          | succ fuel =>
              rw [List.length_singleton] at ends
              have first : Touched accesses (accesses.read start) start (inputEnd + 1) output.length
                  (output.length + 1) :=
                (Touched.refl _).read (Nat.le_refl _) (by omega)
              refine ⟨false, [], [0x5C], [], ((accesses.read start).read inputEnd).write output.length, rfl, .nil,
                halts_backslash, ?_, ?_, ?_⟩
              · rw [run, decodeStringWatched, if_pos (Nat.le_succ _)]
                rfl
              · exact (first.read (by omega) (Nat.lt_succ_self _)).write (Nat.le_refl _) (Nat.lt_succ_self _)
              · intro _
                exact List.mem_append_right _ List.mem_cons_self
        · refine ⟨false, [], text, [], after, rfl, .nil, halts, ?_, ?_, fun single => absurd single long⟩
          · rw [run, if_neg long, behindBackslash, if_neg long, List.append_nil, List.append_nil]
            rfl
          · rw [behindBackslash, if_neg long]
            exact touched

end Rounds

/-! ## The size of the block -/

/-- The escapes that the first pass counts; the first byte may belong to one. -/
def escapes : Bool -> Bytes -> Nat
  | _, [] => 0
  | true, _ :: rest => escapes false rest
  | false, byte :: rest => if byte = 0x5C then escapes true rest + 1 else escapes false rest

/-- The size of the block for a literal: a byte for each byte and each escape, one for
the opening quote and one for the NUL. -/
def room (body : Bytes) : Nat := body.length + 1 - escapes false body + 1

theorem escapes_append (companion : Bool) (front tail : Bytes) :
    ∃ other, escapes companion (front ++ tail) = escapes companion front + escapes other tail := by
  induction front generalizing companion with
  | nil => exact ⟨companion, by rw [List.nil_append, escapes, Nat.zero_add]⟩
  | cons byte front ih =>
      rw [List.cons_append]
      cases companion with
      | true => exact ih false
      | false =>
          rw [escapes, escapes]
          by_cases backslash : byte = 0x5C
          · rcases ih true with ⟨other, total⟩
            exact ⟨other, by rw [if_pos backslash, if_pos backslash, total]; omega⟩
          · rw [if_neg backslash, if_neg backslash]
            exact ih false

/-- Two neighbours do not both begin an escape. -/
theorem escapes_le (companion : Bool) (text : Bytes) :
    2 * escapes companion text + companion.toNat ≤ text.length + 1 := by
  induction text generalizing companion with
  | nil => cases companion <;> decide
  | cons byte rest ih =>
      have behind := ih true
      have next := ih false
      rw [Bool.toNat_true] at behind
      rw [Bool.toNat_false] at next
      rw [List.length_cons]
      cases companion with
      | true =>
          rw [escapes, Bool.toNat_true]
          omega
      | false =>
          rw [escapes, Bool.toNat_false]
          split <;> omega

/-- Only characters beyond the first plane take four bytes. -/
theorem utf8EncodeChar_length_le {character : Char} (small : character.toNat < 0x10000) :
    (String.utf8EncodeChar character).length ≤ 3 := by
  have most := Char.utf8Size_le_four character
  have notFour : character.utf8Size ≠ 4 := by
    intro four
    have large := UInt32.lt_iff_toNat_lt.mp (Char.utf8Size_eq_four_iff.mp four)
    have least : 0xFFFF < character.toNat := large
    omega
  rw [String.length_utf8EncodeChar]
  omega

/-- A piece has room for what is written and for every escape the first pass has counted in it,
whether or not the two passes agree on where escapes begin. -/
theorem Piece.room {flag : Bool} {piece written : Bytes} (isPiece : Piece flag piece written)
    (companion : Bool) : written.length + escapes companion piece ≤ piece.length := by
  have counted := escapes_le companion piece
  cases isPiece with
  | @plain byte notBackslash =>
      cases companion with
      | true => exact Nat.le_refl 1
      | false =>
          rw [escapes, if_neg notBackslash]
          exact Nat.le_refl 1
  | simple _ =>
      rw [List.length_singleton]
      rw [List.length_cons, List.length_singleton] at counted ⊢
      omega
  | @unicode digits four notHigh notLow =>
      have single := toNat_of_single (hex4_lt digits) notHigh notLow
      have short := utf8EncodeChar_length_le (single.trans_lt (hex4_lt digits))
      rw [List.length_cons, List.length_cons, four] at counted ⊢
      omega
  | @pair first second four fourMore _ _ =>
      have short := Char.utf8Size_le_four (joined (hex4 first) (hex4 second))
      rw [← String.length_utf8EncodeChar] at short
      rw [List.length_cons, List.length_cons, List.length_append, List.length_cons, List.length_cons, four,
        fourMore] at counted ⊢
      omega

theorem Pieces.room {flag : Bool} {text output : Bytes} (pieces : Pieces flag text output) (companion : Bool) :
    output.length + escapes companion text ≤ text.length := by
  induction pieces generalizing companion with
  | nil => exact Nat.le_refl 0
  | @cons _ _ piece text _ _ first _ ih =>
      rcases escapes_append companion piece text with ⟨other, total⟩
      have one := first.room companion
      have more := ih other
      rw [List.length_append, List.length_append, total]
      omega

/-- What the pass writes fits into the block, and the NUL with it. -/
theorem Pieces.fits {flag : Bool} {front written : Bytes} (pieces : Pieces flag front written) (tail : Bytes) :
    (written ++ behindBackslash tail).length < CJson.room (front ++ tail) := by
  rcases escapes_append false front tail with ⟨other, total⟩
  have taken := pieces.room false
  have left := escapes_le other tail
  rw [CJson.room, total, List.length_append, List.length_append, behindBackslash]
  by_cases single : tail = [0x5C]
  · rw [if_pos single]
    rw [single, List.length_singleton] at left ⊢
    rw [List.length_singleton]
    omega
  · rw [if_neg single, List.length_nil]
    omega

end CJson
