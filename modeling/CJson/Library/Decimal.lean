import CJson.Library.CString
import Mathlib.Data.Nat.Digits.Lemmas

/-!
# Decimal text

What a program prints for an integer, and the number that a run of digits
spells.  Reading gives back what was printed, also when something that is not a
digit follows.
-/

namespace CJson

open CString

/-- An ASCII digit, `b'0'..=b'9'`. -/
def isDigit (byte : UInt8) : Bool := 48 ≤ byte && byte ≤ 57

/-- The decimal digits at the front of a text. -/
def leadingDigits (run : Bytes) : Bytes := run.takeWhile isDigit

/-- The number that a list of digits spells. -/
def digitsValue (digits : Bytes) : Nat :=
  digits.foldl (fun value digit => 10 * value + (digit.toNat - 48)) 0

/-- The digits of a natural number, the most significant one first. -/
def decimalDigits (value : Nat) : Bytes :=
  if value = 0 then [48] else (Nat.digits 10 value).reverse.map (fun digit => UInt8.ofNat (48 + digit))

/-- The text of an integer. -/
def decimalText (value : Int) : Bytes :=
  if value < 0 then 0x2D :: decimalDigits value.natAbs else decimalDigits value.natAbs

theorem leadingDigits_length_le (run : Bytes) : (leadingDigits run).length ≤ run.length :=
  (List.takeWhile_prefix _).length_le

theorem isDigit_iff {byte : UInt8} : isDigit byte = true ↔ 48 ≤ byte.toNat ∧ byte.toNat ≤ 57 := by
  simp [isDigit, UInt8.le_iff_toNat_le]

theorem digit_toNat {digit : Nat} (small : digit < 10) : (UInt8.ofNat (48 + digit)).toNat = 48 + digit := by
  rw [UInt8.toNat_ofNat']
  omega

/-- Everything that is printed for a natural number is a digit. -/
theorem isDigit_of_mem_decimalDigits {value : Nat} {byte : UInt8} (inside : byte ∈ decimalDigits value) :
    isDigit byte = true := by
  unfold decimalDigits at inside
  by_cases zero : value = 0
  · rw [if_pos zero] at inside
    rw [List.mem_singleton.mp inside]
    decide
  · rw [if_neg zero] at inside
    rcases List.mem_map.mp inside with ⟨digit, found, rfl⟩
    have small := Nat.digits_lt_base (by decide) (List.mem_reverse.mp found)
    rw [isDigit_iff, digit_toNat small]
    omega

theorem decimalDigits_ne_nil (value : Nat) : decimalDigits value ≠ [] := by
  unfold decimalDigits
  by_cases zero : value = 0
  · rw [if_pos zero]
    exact List.cons_ne_nil _ _
  · rw [if_neg zero]
    intro empty
    apply Nat.digits_ne_nil_iff_ne_zero.mpr zero
    exact List.reverse_eq_nil_iff.mp (List.map_eq_nil_iff.mp empty)

/-- The printed digits spell the number. -/
theorem digitsValue_decimalDigits (value : Nat) : digitsValue (decimalDigits value) = value := by
  unfold decimalDigits
  by_cases zero : value = 0
  · rw [if_pos zero, zero]
    rfl
  · rw [if_neg zero, digitsValue, List.foldl_map, List.foldl_reverse]
    have step : ∀ digits : List Nat, (∀ digit ∈ digits, digit < 10) ->
        digits.foldr (fun digit value => 10 * value + ((UInt8.ofNat (48 + digit)).toNat - 48)) 0 =
          Nat.ofDigits 10 digits := by
      intro digits small
      induction digits with
      | nil => rfl
      | cons digit digits hypothesis =>
          rw [List.foldr_cons, hypothesis (fun other inside => small other (List.mem_cons_of_mem _ inside)),
            Nat.ofDigits_cons, digit_toNat (small digit List.mem_cons_self)]
          omega
    rw [step _ (fun digit inside => Nat.digits_lt_base (by decide) inside), Nat.ofDigits_digits]

/-- Reading stops behind the digits that were printed. -/
theorem leadingDigits_append {digits rest : Bytes} (all : ∀ byte ∈ digits, isDigit byte = true)
    (stops : ∀ byte, rest.head? = some byte -> isDigit byte = false) :
    leadingDigits (digits ++ rest) = digits := by
  unfold leadingDigits
  rw [List.takeWhile_append_of_pos all]
  cases rest with
  | nil => rw [List.takeWhile_nil, List.append_nil]
  | cons byte rest =>
      rw [List.takeWhile_cons_of_neg (by rw [stops byte rfl]; decide), List.append_nil]

theorem zero_not_mem_decimalText (value : Int) : (0 : UInt8) ∉ decimalText value := by
  have digits : (0 : UInt8) ∉ decimalDigits value.natAbs := by
    intro inside
    exact absurd (isDigit_of_mem_decimalDigits inside) (by decide)
  unfold decimalText
  by_cases negative : value < 0
  · rw [if_pos negative]
    intro inside
    rcases List.mem_cons.mp inside with same | inside
    · exact absurd same (by decide)
    · exact digits inside
  · rw [if_neg negative]
    exact digits

/-- The text of an integer whose absolute value has at most so many digits. -/
theorem decimalText_length_le {value : Int} {count : Nat} (positive : 0 < count)
    (small : value.natAbs < 10 ^ count) : (decimalText value).length ≤ count + 1 := by
  have digits : (decimalDigits value.natAbs).length ≤ count := by
    unfold decimalDigits
    by_cases zero : value.natAbs = 0
    · rw [if_pos zero]
      exact Nat.succ_le_of_lt positive
    · rw [if_neg zero, List.length_map, List.length_reverse]
      exact (Nat.digits_length_le_iff (by decide) _).mpr small
  unfold decimalText
  by_cases negative : value < 0
  · rw [if_pos negative, List.length_cons]
    omega
  · rw [if_neg negative]
    omega

end CJson
