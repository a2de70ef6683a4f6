import Mathlib.Data.List.Basic

/-!
# String literals

What RFC 8259 calls a string, without its two quotes, and the bytes it denotes: a
raw byte denotes itself, an escape the UTF-8 encoding of a character.  Characters
beyond the first plane take two escapes, a high and a low surrogate; a surrogate
on its own denotes nothing.
-/

namespace JsonString

/-- The value of a hexadecimal digit. -/
def hex? (byte : UInt8) : Option Nat :=
  if 48 ≤ byte ∧ byte ≤ 57 then some (byte.toNat - 48)
  else if 65 ≤ byte ∧ byte ≤ 70 then some (10 + (byte.toNat - 65))
  else if 97 ≤ byte ∧ byte ≤ 102 then some (10 + (byte.toNat - 97))
  else none

/-- The number that four hexadecimal digits are. -/
def code? : List UInt8 -> Option Nat
  | [first, second, third, fourth] => do
      let first ← hex? first
      let second ← hex? second
      let third ← hex? third
      let fourth ← hex? fourth
      some (((first * 16 + second) * 16 + third) * 16 + fourth)
  | _ => none

/-- The character that a letter behind a backslash stands for. -/
def escaped? (letter : UInt8) : Option Char :=
  if letter = 0x22 then some '"'
  else if letter = 0x5C then some '\\'
  else if letter = 0x2F then some '/'
  else if letter = 0x62 then some (.ofNat 8)
  else if letter = 0x66 then some (.ofNat 12)
  else if letter = 0x6E then some (.ofNat 10)
  else if letter = 0x72 then some (.ofNat 13)
  else if letter = 0x74 then some (.ofNat 9)
  else none

/-- The first half of a pair: the code units that begin a surrogate pair in UTF-16. -/
def IsHigh (code : Nat) : Prop := 0xD800 ≤ code ∧ code ≤ 0xDBFF

/-- The second half of a pair. -/
def IsLow (code : Nat) : Prop := 0xDC00 ≤ code ∧ code ≤ 0xDFFF

instance (code : Nat) : Decidable (IsHigh code) := inferInstanceAs (Decidable (_ ∧ _))

instance (code : Nat) : Decidable (IsLow code) := inferInstanceAs (Decidable (_ ∧ _))

/-- The character that a pair stands for. -/
def joined (high low : Nat) : Char := .ofNat (0x10000 + (high - 0xD800) * 0x400 + (low - 0xDC00))

/-- A string literal and the bytes it denotes, between the quotes.  Escapes and pairs
of them denote the UTF-8 text of their character; a half of a pair on its own denotes
nothing. -/
inductive Literal : List UInt8 -> List UInt8 -> Prop where
  | done : Literal [] []
  | raw {byte : UInt8} {text meaning : List UInt8} (notQuote : byte ≠ 0x22) (notBackslash : byte ≠ 0x5C)
      (rest : Literal text meaning) : Literal (byte :: text) (byte :: meaning)
  | escape {letter : UInt8} {character : Char} {text meaning : List UInt8}
      (named : escaped? letter = some character) (rest : Literal text meaning) :
      Literal (0x5C :: letter :: text) (String.utf8EncodeChar character ++ meaning)
  | unicode {digits : List UInt8} {code : Nat} {text meaning : List UInt8} (read : code? digits = some code)
      (notHigh : ¬ IsHigh code) (notLow : ¬ IsLow code) (rest : Literal text meaning) :
      Literal (0x5C :: 0x75 :: digits ++ text) (String.utf8EncodeChar (.ofNat code) ++ meaning)
  | pair {first second : List UInt8} {high low : Nat} {text meaning : List UInt8}
      (readHigh : code? first = some high) (isHigh : IsHigh high)
      (readLow : code? second = some low) (isLow : IsLow low) (rest : Literal text meaning) :
      Literal (0x5C :: 0x75 :: first ++ 0x5C :: 0x75 :: second ++ text)
        (String.utf8EncodeChar (joined high low) ++ meaning)

/-! ## Digits -/

theorem hex?_lt {byte : UInt8} {value : Nat} (read : hex? byte = some value) : value < 16 := by
  unfold hex? at read
  split at read
  · rename_i digit
    have small : byte.toNat ≤ 57 := UInt8.le_iff_toNat_le.mp digit.2
    cases read
    omega
  split at read
  · rename_i digit
    have small : byte.toNat ≤ 70 := UInt8.le_iff_toNat_le.mp digit.2
    cases read
    omega
  split at read
  · rename_i digit
    have small : byte.toNat ≤ 102 := UInt8.le_iff_toNat_le.mp digit.2
    cases read
    omega
  · cases read

/-- Neither of the two bytes with a meaning of their own is a digit. -/
theorem ne_of_hex? {byte : UInt8} {value : Nat} (read : hex? byte = some value) :
    byte ≠ 0x22 ∧ byte ≠ 0x5C := by
  have quote : hex? 0x22 = none := by decide
  have backslash : hex? 0x5C = none := by decide
  constructor
  · intro same
    rw [same, quote] at read
    cases read
  · intro same
    rw [same, backslash] at read
    cases read

/-- What is read as a number are four digits. -/
theorem exists_of_code? {digits : List UInt8} {code : Nat} (read : code? digits = some code) :
    ∃ a b c d first second third fourth, digits = [a, b, c, d] ∧ hex? a = some first ∧
      hex? b = some second ∧ hex? c = some third ∧ hex? d = some fourth ∧
      code = ((first * 16 + second) * 16 + third) * 16 + fourth := by
  unfold code? at read
  split at read
  · rename_i a b c d
    rcases Option.bind_eq_some_iff.mp read with ⟨first, readFirst, read⟩
    rcases Option.bind_eq_some_iff.mp read with ⟨second, readSecond, read⟩
    rcases Option.bind_eq_some_iff.mp read with ⟨third, readThird, read⟩
    rcases Option.bind_eq_some_iff.mp read with ⟨fourth, readFourth, read⟩
    cases read
    exact ⟨a, b, c, d, first, second, third, fourth, rfl, readFirst, readSecond, readThird, readFourth, rfl⟩
  · cases read

theorem code?_length {digits : List UInt8} {code : Nat} (read : code? digits = some code) :
    digits.length = 4 := by
  rcases exists_of_code? read with ⟨_, _, _, _, _, _, _, _, rfl, _⟩
  rfl

theorem code?_lt {digits : List UInt8} {code : Nat} (read : code? digits = some code) :
    code < 0x10000 := by
  rcases exists_of_code? read with
    ⟨_, _, _, _, _, _, _, _, rfl, readFirst, readSecond, readThird, readFourth, rfl⟩
  have first := hex?_lt readFirst
  have second := hex?_lt readSecond
  have third := hex?_lt readThird
  have fourth := hex?_lt readFourth
  omega

/-! ## Characters -/

theorem toNat_ofNat {code : Nat} (scalar : code.isValidChar) : (Char.ofNat code).toNat = code := by
  rw [Char.ofNat, dif_pos scalar]
  rfl

/-- A number that is no surrogate is a character of its own. -/
theorem toNat_of_single {code : Nat} (small : code < 0x10000) (notHigh : ¬ IsHigh code)
    (notLow : ¬ IsLow code) : (Char.ofNat code).toNat = code := by
  unfold IsHigh at notHigh
  unfold IsLow at notLow
  apply toNat_ofNat
  show code < 0xD800 ∨ 0xDFFF < code ∧ code < 0x110000
  omega

theorem joined_toNat {high low : Nat} (isHigh : IsHigh high) (isLow : IsLow low) :
    (joined high low).toNat = 0x10000 + (high - 0xD800) * 0x400 + (low - 0xDC00) := by
  rcases isHigh with ⟨highLeast, highMost⟩
  rcases isLow with ⟨lowLeast, lowMost⟩
  exact toNat_ofNat (Or.inr ⟨by omega, by omega⟩)

end JsonString
