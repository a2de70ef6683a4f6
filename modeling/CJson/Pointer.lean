import CJson.Item
import CJson.Library.Decimal

/-!
# JSON Pointer evaluation

`utils.rs` follows a pointer such as `/a/0/b~1c` from a node down.  The walker
keeps one cursor in the pointer text and one in the tree.  At every `/` it
decodes an array index or compares member names with the escaped token in
place, and then skips to the next `/`.
-/

namespace CJson

open CString

/-- The byte `/`. -/
abbrev slash : UInt8 := 47

/-- The byte `~`. -/
abbrev tilde : UInt8 := 126

theorem slash_ne_zero : slash ≠ 0 := by decide

theorem slash_ne_tilde : slash ≠ tilde := by decide

/-- The values of `usize` are the numbers below this bound. -/
abbrev usizeBound : Nat := 2 ^ 64

/-- The pointer has reached the end of its token. -/
def tokenEnds (pointer : Bytes) : Bool :=
  first pointer == 0 || first pointer == slash

/-- The comparison of one byte outside an escape sequence. -/
def sameByte (caseSensitive : Bool) (name pointer : UInt8) : Bool :=
  if caseSensitive then name == pointer
  else toAsciiLowercase name == toAsciiLowercase pointer

/-- The loop of `compare_pointers`, for a name that is not NULL.  Byte after byte of
the name is compared with the token, where `~0` stands for a tilde and `~1` for a
slash; no other escape matches anything. -/
def comparePointersLoop (caseSensitive : Bool) : Bytes -> Bytes -> Bool
  | [], pointer => tokenEnds pointer
  | byte :: name, pointer =>
      if byte = 0 then tokenEnds pointer
      else if tokenEnds pointer then false
      else if first pointer = tilde then
        if (first pointer.tail ≠ 48 ∨ byte ≠ tilde) ∧ (first pointer.tail ≠ 49 ∨ byte ≠ slash) then
          false
        else comparePointersLoop caseSensitive name (pointer.drop 2)
      else if !sameByte caseSensitive byte (first pointer) then false
      else comparePointersLoop caseSensitive name pointer.tail

/-- `compare_pointers`: compare a member name with the next token. -/
def comparePointers (name : Option Bytes) (pointer : Bytes) (caseSensitive : Bool) : Bool :=
  match name with
  | none => false
  | some name => comparePointersLoop caseSensitive name pointer

/-- The digit loop of `decode_array_index_from_pointer`, with the wrapping
arithmetic of `usize`. -/
def decodeDigits (parsedIndex : Nat) : Bytes -> Nat × Bytes
  | [] => (parsedIndex, [])
  | byte :: rest =>
      if isDigit byte then
        decodeDigits ((parsedIndex * 10 + (byte.toNat - 48)) % usizeBound) rest
      else (parsedIndex, byte :: rest)

/-- `decode_array_index_from_pointer`: decimal digits up to the end of the token.  A
leading zero is refused, also in front of another zero; an empty token has no digits
and gives zero. -/
def decodeArrayIndexFromPointer (pointer : Bytes) : Option Nat :=
  if first pointer = 48 ∧ first pointer.tail ≠ 0 ∧ first pointer.tail ≠ slash then
    -- leading zeroes are not permitted
    none
  else
    match decodeDigits 0 pointer with
    | (index, rest) => if tokenEnds rest then some index else none

/-- `get_array_item`: the position that `item` steps along `next` lead to. -/
def getArrayItem (array : Item) (item : Nat) : Option Nat :=
  if item < array.child.length then some item else none

/-- The child that the token in front selects: by index in an array, by name in
an object, none in a leaf. -/
def selectChild (caseSensitive : Bool) (current : Item) (pointer : Bytes) : Option Nat :=
  if current.isArray then
    match decodeArrayIndexFromPointer pointer with
    | none => none
    | some index => getArrayItem current index
  else if current.isObject then
    current.child.findIdx? (fun member => comparePointers member.string pointer caseSensitive)
  else none

/-- The walk of `get_item_from_pointer` behind its first test, fused with the
loop that skips to the next token: bytes inside a token are passed over, a `/`
starts the next turn, the end of the text ends the walk. -/
def followPointer (caseSensitive : Bool) : Bytes -> Item -> Option Item.Path
  | [], _ => some []
  | byte :: rest, current =>
      if byte = 0 then some []
      else if byte = slash then
        match selectChild caseSensitive current rest with
        | none => none
        | some position =>
            match current.child[position]? with
            | none => none
            | some next => (followPointer caseSensitive rest next).map (position :: ·)
      else followPointer caseSensitive rest current

/-- `get_item_from_pointer`.  A text that does not start with `/` makes no turn
at all and designates the node it started from. -/
def getItemFromPointer (object : Item) (pointer : Bytes) (caseSensitive : Bool) :
    Option Item.Path :=
  if first pointer = slash then followPointer caseSensitive pointer object else some []

/-- `cJSONUtils_GetPointer`. -/
def cjsonUtilsGetPointer (object : Item) (pointer : Bytes) : Option Item.Path :=
  getItemFromPointer object pointer false

/-- `cJSONUtils_GetPointerCaseSensitive`. -/
def cjsonUtilsGetPointerCaseSensitive (object : Item) (pointer : Bytes) : Option Item.Path :=
  getItemFromPointer object pointer true

/-! ## Tokens -/

/-- The bytes up to the next `/` or the end. -/
def token (pointer : Bytes) : Bytes :=
  pointer.takeWhile (fun byte => byte ≠ 0 ∧ byte ≠ slash)

/-- The tokens of a pointer: what stands behind each `/`. -/
def tokens : Bytes -> List Bytes
  | [] => []
  | byte :: rest =>
      if byte = 0 then []
      else if byte = slash then token rest :: tokens rest
      else tokens rest

theorem token_nil : token [] = [] := rfl

theorem token_cons (byte : UInt8) (rest : Bytes) :
    token (byte :: rest) = if byte = 0 ∨ byte = slash then [] else byte :: token rest := by
  by_cases ends : byte = 0 ∨ byte = slash
  · rw [if_pos ends, token, List.takeWhile_cons_of_neg]
    simpa [or_iff_not_imp_left] using ends
  · rw [if_neg ends, token, List.takeWhile_cons_of_pos]
    · rfl
    · simpa [not_or] using ends

/-- What the walker does with a token depends on that token alone. -/
theorem tokenEnds_iff (pointer : Bytes) : tokenEnds pointer = true ↔ token pointer = [] := by
  cases pointer with
  | nil => simp [tokenEnds, token_nil]
  | cons byte rest => by_cases ends : byte = 0 ∨ byte = slash <;> simp [tokenEnds, token_cons, ends]

end CJson
