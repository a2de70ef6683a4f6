import CJson.Additions

/-!
# What a token selects

A token of a pointer is used in two ways.  In an array it spells an index; the
decoder reads one digit after the other into a `usize`, which wraps.  In an object
it is compared with the member names while its escapes are undone.  The walker reads
tokens as they stand in the pointer.  The functions that remove and insert elements
decode their last token in place first, which changes nothing for an index.
-/

namespace CJson

open CString

/-! ## Indices -/

/-- The decoder leaves alone what is in front of the place where it writes. -/
theorem decodePointerLoop_take (fuel : Nat) (block : Bytes) (string decoded : Nat) :
    (decodePointerLoop fuel block string decoded).take decoded = block.take decoded := by
  induction fuel generalizing block string decoded with
  | zero => rfl
  | succ fuel ih =>
      -- one place less than what a turn leaves alone
      have shorter : ∀ {next : Bytes}, next.take decoded = block.take decoded ->
          ∀ string, (decodePointerLoop fuel next string (decoded + 1)).take decoded = block.take decoded := by
        intro next same string
        have kept := congrArg (List.take decoded) (ih next string (decoded + 1))
        rw [List.take_take, List.take_take, Nat.min_eq_left (Nat.le_succ decoded)] at kept
        exact kept.trans same
      rw [decodePointerLoop]
      split_ifs
      · exact List.take_set_of_le le_rfl
      · exact shorter (List.take_set_of_le le_rfl) _
      · exact shorter (List.take_set_of_le (Nat.le_succ decoded)) _
      · rfl
      · exact shorter rfl _

/-- The first `~` of a token is still there after the decoding, whatever follows it:
the slash of a `~1` is written behind it. -/
theorem decodePointerLoop_tilde {fuel : Nat} {front plain rest : Bytes} (free : (0 : UInt8) ∉ plain)
    (noEscape : tilde ∉ plain) (enough : plain.length < fuel) :
    (decodePointerLoop fuel (front ++ (plain ++ tilde :: rest)) front.length front.length).take
        (front.length + plain.length + 1) = front ++ (plain ++ [tilde]) := by
  induction plain generalizing fuel front with
  | nil =>
      cases fuel with
      | zero => exact absurd enough (Nat.lt_irrefl 0)
      | succ fuel =>
          have start : (front ++ tilde :: rest).take (front.length + 1) = front ++ [tilde] := by
            rw [List.take_length_add_append]
            rfl
          have written : ((front ++ tilde :: rest).set front.length tilde).take (front.length + 1) =
              front ++ [tilde] := by
            rw [List.set_append_right _ _ le_rfl, Nat.sub_self, List.set_cons_zero, start]
          rw [List.nil_append, List.nil_append, decodePointerLoop, List.drop_left]
          simp only [first_cons, show ¬ tilde = 0 by decide, if_false, if_true, List.length_nil,
            Nat.add_zero]
          split_ifs
          · rw [decodePointerLoop_take, written]
          · rw [decodePointerLoop_take, List.take_set_of_le le_rfl, start]
          · exact start
  | cons byte plain ih =>
      cases fuel with
      | zero => exact absurd enough (Nat.not_lt_zero _)
      | succ fuel =>
          rw [List.mem_cons, not_or] at free noEscape
          have behind := @ih fuel (front ++ [byte]) free.2 noEscape.2 (Nat.lt_of_succ_lt_succ enough)
          rw [decodePointerLoop, List.drop_left]
          simp only [List.cons_append, first_cons, Ne.symm free.1, Ne.symm noEscape.1, if_false]
          simp only [List.append_assoc, List.singleton_append, List.length_append, List.length_singleton]
            at behind
          rw [List.length_cons, ← behind]
          congr 1
          omega

/-- Decoding a token in place does not change which array element it selects. -/
theorem decodeArrayIndexFromPointer_decodePointerInplace {pointer : Bytes}
    (free : (0 : UInt8) ∉ pointer) (oneToken : slash ∉ pointer) :
    decodeArrayIndexFromPointer (decodePointerInplace pointer) = decodeArrayIndexFromPointer pointer := by
  by_cases escaped : tilde ∈ pointer
  · -- neither text is a numeral
    have rejects : ∀ {plain rest : Bytes}, (0 : UInt8) ∉ plain -> slash ∉ plain ->
        decodeArrayIndexFromPointer (plain ++ tilde :: rest) = none := by
      intro plain rest free oneToken
      apply Option.eq_none_iff_forall_not_mem.mpr
      intro index decoded
      have digits := ((decodeArrayIndexFromPointer_iff _ _).mp decoded).1
      have inside : tilde ∈ token (plain ++ tilde :: rest) := by
        rw [token, List.takeWhile_append_of_pos]
        · exact List.mem_append_right _ List.mem_cons_self
        · intro byte member
          have nonzero : byte ≠ 0 := fun zero => free (zero ▸ member)
          have notSlash : byte ≠ slash := fun same => oneToken (same ▸ member)
          exact decide_eq_true ⟨nonzero, notSlash⟩
      exact absurd (List.all_eq_true.mp digits tilde inside) (by decide)
    obtain ⟨plain, rest, rfl, noEscape⟩ := List.eq_append_cons_of_mem escaped
    have plainFree : (0 : UInt8) ∉ plain := fun zero => free (List.mem_append_left _ zero)
    have plainToken : slash ∉ plain := fun inside => oneToken (List.mem_append_left _ inside)
    have kept := @decodePointerLoop_tilde ((plain ++ tilde :: rest).length + 1) [] plain rest plainFree
      noEscape (by rw [List.length_append]; omega)
    have split := (List.take_append_drop (plain.length + 1) (decodePointerInplace (plain ++ tilde :: rest))).symm
    rw [List.nil_append, List.nil_append, List.length_nil, Nat.zero_add] at kept
    rw [decodePointerInplace] at split ⊢
    rw [kept, List.append_assoc, List.singleton_append] at split
    rw [split, rejects plainFree plainToken, rejects plainFree plainToken]
  · rw [decodePointerInplace_eq_self free escaped]

/-- A token selects the array element it spells, and no other: by the decoder itself,
in the walk to an element that is read, and for a last token, which is decoded in
place before an element is removed or inserted. -/
structure SelectsSpelled (pointer : Bytes) : Prop where
  decoded : ∀ index, decodeArrayIndexFromPointer pointer = some index ↔
    ReadsIndex (token pointer) ∧ decimalValue (token pointer) = index
  read : ∀ caseSensitive (array : Item) position, array.isArray = true ->
    selectChild caseSensitive array pointer = some position ->
      IsCanonicalIndex (token pointer) ∧ decimalValue (token pointer) = position
  written : ∀ index, decodeArrayIndexFromPointer (decodePointerInplace (token pointer)) = some index ->
    IsCanonicalIndex (token pointer) ∧ decimalValue (token pointer) = index

/-- A token has no terminator and no `/` in it. -/
theorem token_free (pointer : Bytes) : (0 : UInt8) ∉ token pointer ∧ slash ∉ token pointer := by
  have kept : ∀ byte ∈ token pointer, byte ≠ 0 ∧ byte ≠ slash := by
    intro byte inside
    exact of_decide_eq_true (List.all_eq_true.mp List.all_takeWhile byte inside)
  exact ⟨fun inside => (kept 0 inside).1 rfl, fun inside => (kept slash inside).2 rfl⟩

/-- A token selects the array element it spells exactly if it is not empty and spells no
index that a `usize` cannot hold. -/
theorem selectsSpelled_iff (pointer : Bytes) :
    SelectsSpelled pointer ↔
      token pointer ≠ [] ∧
        (IsCanonicalIndex (token pointer) -> decimalValue (token pointer) < usizeBound) := by
  have shape : ∀ index, decodeArrayIndexFromPointer pointer = some index ↔
      (token pointer = [] ∧ index = 0) ∨
        (IsCanonicalIndex (token pointer) ∧ index = decimalValue (token pointer) % usizeBound) := by
    intro index
    rw [decodeArrayIndexFromPointer_iff]
    constructor
    · rintro ⟨digits, leading, value⟩
      by_cases empty : token pointer = []
      · rw [empty] at value
        exact Or.inl ⟨empty, value⟩
      · exact Or.inr ⟨⟨empty, digits, leading⟩, value⟩
    · rintro (⟨empty, rfl⟩ | ⟨canonical, value⟩)
      · rw [empty]
        exact ⟨rfl, fun impossible => absurd impossible (by decide), rfl⟩
      · exact ⟨canonical.2.1, canonical.2.2, value⟩
  constructor
  · intro selects
    constructor
    · intro empty
      have accepted := (shape 0).mpr (Or.inl ⟨empty, rfl⟩)
      exact ((selects.decoded 0).mp accepted).1.1.1 empty
    · intro canonical
      have accepted := (shape _).mpr (Or.inr ⟨canonical, rfl⟩)
      exact ((selects.decoded _).mp accepted).1.2
  · rintro ⟨nonempty, small⟩
    have exact_ : ∀ index, decodeArrayIndexFromPointer pointer = some index ↔
        ReadsIndex (token pointer) ∧ decimalValue (token pointer) = index := by
      intro index
      rw [shape]
      constructor
      · rintro (⟨empty, _⟩ | ⟨canonical, value⟩)
        · exact absurd empty nonempty
        · rw [Nat.mod_eq_of_lt (small canonical)] at value
          exact ⟨⟨canonical, small canonical⟩, value.symm⟩
      · rintro ⟨⟨canonical, bound⟩, value⟩
        exact Or.inr ⟨canonical, by rw [Nat.mod_eq_of_lt bound, value]⟩
    refine ⟨exact_, ?_, ?_⟩
    · intro caseSensitive array position isArray selected
      rw [selectChild, if_pos isArray] at selected
      cases decoded : decodeArrayIndexFromPointer pointer with
      | none => simp [decoded] at selected
      | some index =>
          simp only [decoded, getArrayItem] at selected
          have spelled := (exact_ index).mp decoded
          split at selected
          · cases selected
            exact ⟨spelled.1.1, spelled.2⟩
          · cases selected
    · intro index decoded
      have free := token_free pointer
      rw [decodeArrayIndexFromPointer_decodePointerInplace free.1 free.2,
        decodeArrayIndexFromPointer_iff, token_eq_self free.1 free.2,
        ← decodeArrayIndexFromPointer_iff] at decoded
      have spelled := (exact_ index).mp decoded
      exact ⟨spelled.1.1, spelled.2⟩

/-- The text `18446744073709551617`, which is `2 ^ 64 + 1`. -/
def wrappingIndex : Bytes :=
  [49, 56, 52, 52, 54, 55, 52, 52, 48, 55, 51, 55, 48, 57, 53, 53, 49, 54, 49, 55]

/-- The empty token is read as 0, and an index of more than 64 bits as another one. -/
theorem selectsSpelled_fails :
    (decodeArrayIndexFromPointer [slash] = some 0 ∧ ¬ SelectsSpelled [slash]) ∧
      decodeArrayIndexFromPointer wrappingIndex = some 1 ∧ ¬ SelectsSpelled wrappingIndex := by
  have empty : decodeArrayIndexFromPointer [slash] = some 0 := by decide
  have wrapped : decodeArrayIndexFromPointer wrappingIndex = some 1 := by decide
  refine ⟨⟨empty, fun selects => ?_⟩, wrapped, fun selects => ?_⟩
  · exact ((selects.decoded 0).mp empty).1.1.1 rfl
  · exact absurd ((selects.decoded 1).mp wrapped).2 (by decide)

/-! ## Names -/

/-- A member name matches a token if the token has only valid escapes and stands for that
name, in the case mode.  So it matches the token of the name with the rest of a pointer
behind it, and no token of another name. -/
theorem comparePointers_iff (caseSensitive : Bool) (name pointer : Bytes) (free : (0 : UInt8) ∉ name) :
    (comparePointers (some name) pointer caseSensitive = true ↔
        ∃ decoded, unescape (token pointer) = some decoded ∧ SameName caseSensitive name decoded) ∧
      ∀ block other rest, (0 : UInt8) ∉ other -> pointerEncodedLength other < block.length ->
        (comparePointers (some name)
            (text (encodeStringAsPointer block 0 other) ++ slash :: rest) caseSensitive = true ↔
          SameName caseSensitive name other) := by
  have matches_ : ∀ pointer, comparePointers (some name) pointer caseSensitive = true ↔
      ∃ decoded, unescape (token pointer) = some decoded ∧ SameName caseSensitive name decoded := by
    intro pointer
    rw [comparePointers, comparePointersLoop_iff, text_eq_self free]
  refine ⟨matches_ pointer, ?_⟩
  intro block other rest otherFree room
  obtain ⟨more, encoded⟩ := @encodeStringAsPointer_start block other otherFree room
  have escapeFree := zero_not_mem_escape otherFree
  rw [encoded, text_append_zero escapeFree, matches_, token_append_slash,
    token_eq_self escapeFree (slash_not_mem_escape other), unescape_escape]
  constructor
  · rintro ⟨decoded, same, matched⟩
    cases same
    exact matched
  · exact fun matched => ⟨other, rfl, matched⟩

/-- The name `a/` and the pointer `a~1/b`. -/
theorem comparePointers_iff_slash :
    (comparePointers (some [97, slash]) [97, tilde, 49, slash, 98] true = true ↔
        ∃ decoded, unescape (token [97, tilde, 49, slash, 98]) = some decoded ∧
          SameName true [97, slash] decoded) ∧
      ∀ block other rest, (0 : UInt8) ∉ other -> pointerEncodedLength other < block.length ->
        (comparePointers (some [97, slash])
            (text (encodeStringAsPointer block 0 other) ++ slash :: rest) true = true ↔
          SameName true [97, slash] other) :=
  comparePointers_iff true [97, slash] [97, tilde, 49, slash, 98] (by decide)

end CJson
