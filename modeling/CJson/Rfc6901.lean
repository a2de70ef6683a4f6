import CJson.Pointer
import Mathlib.Data.List.Nodup
import Mathlib.Data.List.Forall2

/-!
# RFC 6901 and the pointer walker

The RFC gives a pointer its meaning token by token: a token with its escapes
undone names an object member, and a canonical decimal numeral selects an array
element.  `Designates` states this on a tree.  The walker agrees with it except
for three slips, each of which makes it accept more: a pointer without a
leading `/` designates the root, an empty array token counts as index 0, and an
array index is taken modulo `2 ^ 64`.
-/

namespace CJson

open CString

/-! ## Escapes -/

/-- Undo the escapes of a token.  A `~` in front of anything but `0` and `1` is
an error. -/
def unescape : Bytes -> Option Bytes
  | [] => some []
  | byte :: rest =>
      if byte = tilde then
        match rest with
        | [] => none
        | code :: rest =>
            if code = 48 then (unescape rest).map (tilde :: ·)
            else if code = 49 then (unescape rest).map (slash :: ·)
            else none
      else (unescape rest).map (byte :: ·)

/-- Two texts are the same name: equal bytes, or equal up to ASCII case.  Which of the
two is meant is the mode of the lookup. -/
def SameName (caseSensitive : Bool) (left right : Bytes) : Prop :=
  left.map (caseFold caseSensitive) = right.map (caseFold caseSensitive)

@[simp] theorem sameName_true {left right : Bytes} : SameName true left right ↔ left = right := by
  simp [SameName, caseFold]

theorem sameByte_iff (caseSensitive : Bool) (left right : UInt8) :
    sameByte caseSensitive left right = true ↔
      caseFold caseSensitive left = caseFold caseSensitive right := by
  cases caseSensitive <;> simp [sameByte, caseFold]

theorem SameName.cons_iff (caseSensitive : Bool) (left right : UInt8) (lefts rights : Bytes) :
    SameName caseSensitive (left :: lefts) (right :: rights) ↔
      caseFold caseSensitive left = caseFold caseSensitive right ∧
        SameName caseSensitive lefts rights := by
  simp [SameName]

theorem unescape_plain {byte : UInt8} (plain : byte ≠ tilde) (rest : Bytes) :
    unescape (byte :: rest) = (unescape rest).map (byte :: ·) := by
  rw [unescape.eq_def]
  simp only [plain, if_false]

theorem unescape_zero (rest : Bytes) :
    unescape (tilde :: 48 :: rest) = (unescape rest).map (tilde :: ·) := by
  rw [unescape, if_pos rfl]
  rfl

theorem unescape_one (rest : Bytes) :
    unescape (tilde :: 49 :: rest) = (unescape rest).map (slash :: ·) := by
  rw [unescape, if_pos rfl]
  rfl

theorem unescape_invalid {code : UInt8} (notZero : code ≠ 48) (notOne : code ≠ 49) (rest : Bytes) :
    unescape (tilde :: code :: rest) = none := by
  rw [unescape, if_pos rfl]
  simp only [notZero, notOne, if_false]

theorem unescape_lone : unescape [tilde] = none := by
  rw [unescape, if_pos rfl]

/-- Only the empty token decodes to the empty text. -/
theorem unescape_eq_some_nil {text : Bytes} : unescape text = some [] ↔ text = [] := by
  constructor
  · intro decoded
    cases text with
    | nil => rfl
    | cons byte rest =>
        by_cases escape : byte = tilde
        · subst escape
          cases rest with
          | nil => rw [unescape_lone] at decoded; cases decoded
          | cons code rest =>
              by_cases zero : code = 48
              · subst zero
                simp [unescape_zero] at decoded
              · by_cases one : code = 49
                · subst one
                  simp [unescape_one] at decoded
                · rw [unescape_invalid zero one] at decoded
                  cases decoded
        · simp [unescape_plain escape] at decoded
  · rintro rfl
    rfl

/-- The decodings of a token whose first decoded byte is known. -/
private theorem decodes_cons_iff {caseSensitive : Bool} {symbol byte : UInt8} {name rest : Bytes} :
    (∃ decoded, (unescape rest).map (symbol :: ·) = some decoded ∧
        SameName caseSensitive (byte :: name) decoded) ↔
      caseFold caseSensitive byte = caseFold caseSensitive symbol ∧
        ∃ decoded, unescape rest = some decoded ∧ SameName caseSensitive name decoded := by
  constructor
  · rintro ⟨decoded, equal, same⟩
    obtain ⟨tail, tailEq, rfl⟩ := Option.map_eq_some_iff.mp equal
    have parts := (SameName.cons_iff _ _ _ _ _).mp same
    exact ⟨parts.1, tail, tailEq, parts.2⟩
  · rintro ⟨head, tail, tailEq, same⟩
    exact ⟨symbol :: tail, Option.map_eq_some_iff.mpr ⟨tail, tailEq, rfl⟩,
      (SameName.cons_iff _ _ _ _ _).mpr ⟨head, same⟩⟩

/-- A name that is read to its end matches the empty token only. -/
private theorem ended_iff (caseSensitive : Bool) (pointer : Bytes) :
    tokenEnds pointer = true ↔
      ∃ decoded, unescape (token pointer) = some decoded ∧ SameName caseSensitive [] decoded := by
  rw [tokenEnds_iff, ← unescape_eq_some_nil]
  constructor
  · exact fun ended => ⟨[], ended, rfl⟩
  · rintro ⟨decoded, ended, same⟩
    have empty : decoded = [] := by simpa [SameName] using same.symm
    rwa [empty] at ended

/-- Member comparison is exact: the whole token is matched, and it is matched
with its escapes undone. -/
theorem comparePointersLoop_iff (caseSensitive : Bool) (name pointer : Bytes) :
    comparePointersLoop caseSensitive name pointer = true ↔
      ∃ decoded, unescape (token pointer) = some decoded ∧
        SameName caseSensitive (text name) decoded := by
  induction name generalizing pointer with
  | nil => exact ended_iff caseSensitive pointer
  | cons byte name ih =>
      rw [comparePointersLoop, text_cons]
      by_cases zero : byte = 0
      · rw [if_pos zero, if_pos zero]
        exact ended_iff caseSensitive pointer
      rw [if_neg zero, if_neg zero]
      by_cases ended : tokenEnds pointer = true
      · -- the token is empty, the name is not
        rw [if_pos ended, (tokenEnds_iff pointer).mp ended]
        constructor
        · exact fun impossible => by cases impossible
        · rintro ⟨decoded, empty, same⟩
          cases empty
          cases same
      rw [if_neg ended]
      cases pointer with
      | nil => exact absurd rfl ended
      | cons symbol rest =>
          have inside : ¬ (symbol = 0 ∨ symbol = slash) := by simpa [tokenEnds] using ended
          rw [token_cons, if_neg inside]
          by_cases escape : symbol = tilde
          · subst escape
            rw [if_pos (show first (tilde :: rest) = tilde from rfl)]
            cases rest with
            | nil => simp [unescape_lone, token_nil]
            | cons code rest =>
                simp only [List.tail_cons, first_cons, List.drop_succ_cons, List.drop_zero]
                by_cases isZero : code = 48
                · subst isZero
                  have inner : token (48 :: rest) = 48 :: token rest := token_cons 48 rest
                  rw [inner, unescape_zero, decodes_cons_iff, caseFold_eq_iff (by decide), ← ih rest]
                  by_cases matched : byte = tilde <;> simp [matched]
                · by_cases isOne : code = 49
                  · subst isOne
                    have inner : token (49 :: rest) = 49 :: token rest := token_cons 49 rest
                    rw [inner, unescape_one, decodes_cons_iff, caseFold_eq_iff (by decide), ← ih rest]
                    by_cases matched : byte = slash <;> simp [matched]
                  · simp only [ne_eq, isZero, isOne, not_false_eq_true, true_or, and_self, if_true]
                    rw [token_cons]
                    by_cases cut : code = 0 ∨ code = slash
                    · rw [if_pos cut, unescape_lone]
                      simp
                    · rw [if_neg cut, unescape_invalid isZero isOne]
                      simp
          · rw [if_neg (show ¬ first (symbol :: rest) = tilde from escape), List.tail_cons, first_cons,
              unescape_plain escape, decodes_cons_iff, ← sameByte_iff, ← ih rest]
            by_cases matched : sameByte caseSensitive byte symbol = true <;> simp [matched]

/-! ## Array indices -/

/-- The number a list of decimal digits spells. -/
def decimalValue (digits : Bytes) : Nat :=
  digits.foldl (fun value digit => value * 10 + (digit.toNat - 48)) 0

/-- A token that is a canonical array index: `0`, or digits without a leading zero.
Its value has no bound here, as in the RFC. -/
def IsCanonicalIndex (token : Bytes) : Prop :=
  token ≠ [] ∧ token.all isDigit = true ∧ (first token = 48 -> token.length = 1)

instance (token : Bytes) : Decidable (IsCanonicalIndex token) :=
  inferInstanceAs (Decidable (_ ∧ _ ∧ _))

private theorem decodeDigits_spec (parsedIndex : Nat) (pointer : Bytes) :
    decodeDigits (parsedIndex % usizeBound) pointer =
      ((pointer.takeWhile isDigit).foldl (fun value digit => value * 10 + (digit.toNat - 48))
          parsedIndex % usizeBound,
        pointer.dropWhile isDigit) := by
  induction pointer generalizing parsedIndex with
  | nil => rfl
  | cons byte rest ih =>
      rw [decodeDigits]
      by_cases digit : isDigit byte = true
      · have step : (parsedIndex % usizeBound * 10 + (byte.toNat - 48)) % usizeBound =
            (parsedIndex * 10 + (byte.toNat - 48)) % usizeBound := by
          rw [Nat.add_mod, Nat.mod_mul_mod, ← Nat.add_mod]
        rw [if_pos digit, step, ih, List.takeWhile_cons_of_pos digit,
          List.dropWhile_cons_of_pos digit]
        rfl
      · rw [if_neg digit, List.takeWhile_cons_of_neg digit, List.dropWhile_cons_of_neg digit]
        rfl

private theorem not_ends_of_isDigit {byte : UInt8} (digit : isDigit byte = true) :
    ¬ (byte = 0 ∨ byte = slash) := by
  rintro (zero | isSlash)
  · subst zero
    revert digit
    decide
  · subst isSlash
    revert digit
    decide

/-- The digits in front are the whole token exactly when the token ends behind
them. -/
private theorem digits_iff (pointer : Bytes) :
    (tokenEnds (pointer.dropWhile isDigit) = true ↔ (token pointer).all isDigit = true) ∧
      ((token pointer).all isDigit = true -> pointer.takeWhile isDigit = token pointer) := by
  induction pointer with
  | nil => exact ⟨Iff.rfl, fun _ => rfl⟩
  | cons byte rest ih =>
      rw [token_cons]
      by_cases digit : isDigit byte = true
      · rw [List.dropWhile_cons_of_pos digit, List.takeWhile_cons_of_pos digit,
          if_neg (not_ends_of_isDigit digit), List.all_cons, digit, Bool.true_and]
        exact ⟨ih.1, fun all => by rw [ih.2 all]⟩
      · rw [List.dropWhile_cons_of_neg digit, List.takeWhile_cons_of_neg digit]
        by_cases ends : byte = 0 ∨ byte = slash
        · rw [if_pos ends]
          exact ⟨by simp [tokenEnds, ends], fun _ => rfl⟩
        · rw [if_neg ends, List.all_cons]
          simp [tokenEnds, ends, digit]

/-- What the walker takes for an array index: digits without a leading zero,
possibly none at all, and their value as a `usize`. -/
theorem decodeArrayIndexFromPointer_iff (pointer : Bytes) (index : Nat) :
    decodeArrayIndexFromPointer pointer = some index ↔
      (token pointer).all isDigit = true ∧ (first (token pointer) = 48 -> (token pointer).length = 1) ∧
        index = decimalValue (token pointer) % usizeBound := by
  have leading : (first pointer = 48 ∧ first pointer.tail ≠ 0 ∧ first pointer.tail ≠ slash) ↔
      ¬ (first (token pointer) = 48 -> (token pointer).length = 1) := by
    cases pointer with
    | nil => simp [token_nil]
    | cons byte rest =>
        rw [token_cons]
        by_cases ends : byte = 0 ∨ byte = slash
        · rw [if_pos ends]
          rcases ends with rfl | rfl
          · simp
          · exact ⟨fun parts => absurd parts.1 (show ¬ slash = 48 by decide), fun impossible => by simp at impossible⟩
        · rw [if_neg ends]
          cases rest with
          | nil => simp [token_nil]
          | cons next rest =>
              rw [token_cons]
              by_cases cut : next = 0 ∨ next = slash
              · rcases cut with rfl | rfl <;> simp
              · have parts := not_or.mp cut
                simp [parts.1, parts.2]
  have digits : decodeDigits 0 pointer = ((pointer.takeWhile isDigit).foldl
      (fun value digit => value * 10 + (digit.toNat - 48)) 0 % usizeBound,
        pointer.dropWhile isDigit) := decodeDigits_spec 0 pointer
  rw [decodeArrayIndexFromPointer]
  by_cases zeroes : first pointer = 48 ∧ first pointer.tail ≠ 0 ∧ first pointer.tail ≠ slash
  · rw [if_pos zeroes]
    constructor
    · exact fun impossible => by cases impossible
    · exact fun parts => absurd parts.2.1 (leading.mp zeroes)
  · have canonical := not_not.mp (mt leading.mpr zeroes)
    rw [if_neg zeroes, digits]
    by_cases all : (token pointer).all isDigit = true
    · simp only [((digits_iff pointer).1).mpr all, if_true, (digits_iff pointer).2 all]
      constructor
      · intro equal
        exact ⟨all, canonical, (Option.some.inj equal).symm⟩
      · rintro ⟨_, _, rfl⟩
        rfl
    · simp [mt ((digits_iff pointer).1).mp all, all]

/-! ## What the RFC says and what the walker accepts -/

/-- One token, as RFC 6901 reads it: an index of an array, or the escaped name of a
member.  If two members have the same name the relation allows either. -/
inductive RfcStep (item : Item) (token : Bytes) (position : Nat) (next : Item) : Prop where
  | element (array : item.isArray = true) (canonical : IsCanonicalIndex token)
      (spelled : decimalValue token = position) (child : item.child[position]? = some next)
  | member {name : Bytes} (object : item.isObject = true) (decoded : unescape token = some name)
      (child : item.child[position]? = some next) (named : next.string.map text = some name)

/-- An array token that RFC 6901 rejects or reads as a larger number, and the
element it gets all the same: the empty token reads as 0, and every index is
taken modulo `2 ^ 64`. -/
structure SlipStep (item : Item) (token : Bytes) (position : Nat) (next : Item) : Prop where
  array : item.isArray = true
  loose : token = [] ∨ IsCanonicalIndex token ∧ usizeBound ≤ decimalValue token
  wrapped : decimalValue token % usizeBound = position
  child : item.child[position]? = some next

/-- RFC 6901 evaluation of a token list, as a path: step by step, and nowhere else. -/
inductive Designates : Item -> List Bytes -> Item.Path -> Prop where
  | here (item : Item) : Designates item [] []
  | step {item next : Item} {token : Bytes} {rest : List Bytes} {position : Nat}
      {path : Item.Path} (first : RfcStep item token position next)
      (below : Designates next rest path) : Designates item (token :: rest) (position :: path)

/-- RFC 6901 evaluation of a pointer text: the empty text is the whole
document, every other pointer starts with `/`. -/
def RfcDesignates (document : Item) (pointer : Bytes) (path : Item.Path) : Prop :=
  (pointer = [] ∨ first pointer = slash) ∧ Designates document (tokens pointer) path

/-- Evaluation that also takes slip steps.  The flag tells whether it took one, so
that both what is right and what goes wrong can be said of one relation. -/
inductive LooselyDesignates : Item -> List Bytes -> Bool -> Item.Path -> Prop where
  | here (item : Item) : LooselyDesignates item [] false []
  | step {item next : Item} {token : Bytes} {rest : List Bytes} {position : Nat}
      {slipped : Bool} {path : Item.Path} (first : RfcStep item token position next)
      (below : LooselyDesignates next rest slipped path) :
      LooselyDesignates item (token :: rest) slipped (position :: path)
  | slip {item next : Item} {token : Bytes} {rest : List Bytes} {position : Nat}
      {slipped : Bool} {path : Item.Path} (first : SlipStep item token position next)
      (below : LooselyDesignates next rest slipped path) :
      LooselyDesignates item (token :: rest) true (position :: path)

/-- The member that the walker finds first is the member of that name, if names do not
repeat. -/
private theorem findMember_iff {item next : Item} {pointer : Bytes} {position : Nat}
    (distinct : Item.DistinctNames item.child) :
    (item.child.findIdx? (fun member => comparePointers member.string pointer true) = some position ∧
        item.child[position]? = some next) ↔
      ∃ name, unescape (token pointer) = some name ∧ item.child[position]? = some next ∧
        next.string.map text = some name := by
  have matches_iff : ∀ member : Item, comparePointers member.string pointer true = true ↔
      ∃ name, unescape (token pointer) = some name ∧ member.string.map text = some name := by
    intro member
    cases stored : member.string with
    | none => simp [comparePointers]
    | some name =>
        rw [comparePointers, comparePointersLoop_iff]
        simp [eq_comm]
  constructor
  · rintro ⟨found, child⟩
    obtain ⟨bound, hit, _⟩ := List.findIdx?_eq_some_iff_getElem.mp found
    have same : item.child[position] = next := by
      rw [List.getElem?_eq_getElem bound] at child
      exact Option.some.inj child
    rw [same] at hit
    obtain ⟨name, decoded, named⟩ := (matches_iff next).mp hit
    exact ⟨name, decoded, child, named⟩
  · rintro ⟨name, decoded, child, named⟩
    obtain ⟨bound, same⟩ := List.getElem?_eq_some_iff.mp child
    refine ⟨List.findIdx?_eq_some_iff_getElem.mpr ⟨bound, ?_, ?_⟩, child⟩
    · rw [same]
      exact (matches_iff next).mpr ⟨name, decoded, named⟩
    · intro earlier before hit
      obtain ⟨other, otherDecoded, otherNamed⟩ := (matches_iff _).mp hit
      have keys : (item.child.map Item.key).get ⟨earlier, by simp; omega⟩ =
          (item.child.map Item.key).get ⟨position, by simpa using bound⟩ := by
        have nameEq : other = name := Option.some.inj (otherDecoded.symm.trans decoded)
        rw [List.get_eq_getElem, List.get_eq_getElem, List.getElem_map, List.getElem_map, same]
        obtain ⟨block, blockEq, rfl⟩ := Option.map_eq_some_iff.mp named
        obtain ⟨otherBlock, otherBlockEq, otherText⟩ := Option.map_eq_some_iff.mp otherNamed
        simp only [Item.key, blockEq, otherBlockEq, Option.getD_some, otherText, nameEq]
      have positions := (List.Nodup.getElem_inj_iff distinct.2).mp keys
      omega

theorem not_isObject_of_isArray {item : Item} (array : item.isArray = true) :
    ¬ item.isObject = true := by
  simp only [Item.isArray, Item.isObject, beq_iff_eq] at *
  simp [array]

/-- One turn of the walker is an RFC step or a slip step.  With distinct names and an
array that indices can address these are all the ways in which it gets to a child. -/
theorem selectChild_iff {item next : Item} {pointer : Bytes} {position : Nat}
    (distinct : item.DistinctKeys) (addressable : item.Addressable) :
    (selectChild true item pointer = some position ∧ item.child[position]? = some next) ↔
      RfcStep item (token pointer) position next ∨ SlipStep item (token pointer) position next := by
  unfold selectChild
  by_cases array : item.isArray = true
  · rw [if_pos array]
    constructor
    · rintro ⟨selected, child⟩
      cases decoded : decodeArrayIndexFromPointer pointer with
      | none => simp [decoded] at selected
      | some index =>
          have found : index = position := by
            simp only [decoded, getArrayItem] at selected
            split at selected
            · exact Option.some.inj selected
            · cases selected
          subst found
          obtain ⟨digits, leading, value⟩ := (decodeArrayIndexFromPointer_iff pointer index).mp decoded
          by_cases empty : token pointer = []
          · exact Or.inr ⟨array, Or.inl empty, value.symm, child⟩
          · have canonical : IsCanonicalIndex (token pointer) := ⟨empty, digits, leading⟩
            by_cases huge : usizeBound ≤ decimalValue (token pointer)
            · exact Or.inr ⟨array, Or.inr ⟨canonical, huge⟩, value.symm, child⟩
            · rw [Nat.mod_eq_of_lt (not_le.mp huge)] at value
              exact Or.inl (.element array canonical value.symm child)
    · intro step
      have decoded : decodeArrayIndexFromPointer pointer = some position ∧
          item.child[position]? = some next := by
        rcases step with step | step
        · cases step with
          | element _ canonical spelled child =>
              have bound := (List.getElem?_eq_some_iff.mp child).1
              refine ⟨(decodeArrayIndexFromPointer_iff pointer position).mpr
                ⟨canonical.2.1, canonical.2.2, ?_⟩, child⟩
              rw [spelled, Nat.mod_eq_of_lt (lt_trans bound addressable.length_lt)]
          | member object _ _ _ => exact absurd object (not_isObject_of_isArray array)
        · refine ⟨(decodeArrayIndexFromPointer_iff pointer position).mpr ?_, step.child⟩
          rcases step.loose with empty | ⟨canonical, _⟩
          · rw [empty]
            exact ⟨rfl, by simp, by rw [← step.wrapped, empty]⟩
          · exact ⟨canonical.2.1, canonical.2.2, step.wrapped.symm⟩
      have bound := (List.getElem?_eq_some_iff.mp decoded.2).1
      exact ⟨by simp [decoded.1, getArrayItem, bound], decoded.2⟩
  · rw [if_neg array]
    by_cases object : item.isObject = true
    · rw [if_pos object, findMember_iff (distinct.names object)]
      constructor
      · rintro ⟨name, decoded, child, named⟩
        exact Or.inl (.member object decoded child named)
      · rintro (step | step)
        · cases step with
          | element isArray _ _ _ => exact absurd isArray array
          | member _ decoded child named => exact ⟨_, decoded, child, named⟩
        · exact absurd step.array array
    · rw [if_neg object]
      constructor
      · rintro ⟨impossible, _⟩
        cases impossible
      · rintro (step | step)
        · cases step with
          | element isArray _ _ _ => exact absurd isArray array
          | member isObject _ _ _ => exact absurd isObject object
        · exact absurd step.array array

/-- The whole walk, by induction on the pointer text: a `/` is one turn, every
other byte is skipped. -/
theorem followPointer_iff (pointer : Bytes) {item : Item} (distinct : item.DistinctKeys)
    (addressable : item.Addressable) (path : Item.Path) :
    followPointer true pointer item = some path ↔
      ∃ slipped, LooselyDesignates item (tokens pointer) slipped path := by
  have ended : ∀ {current : Item} {path : Item.Path}, some [] = some path ↔
      ∃ slipped, LooselyDesignates current [] slipped path := by
    intro current path
    constructor
    · intro equal
      cases equal
      exact ⟨false, .here current⟩
    · rintro ⟨slipped, designated⟩
      cases designated
      rfl
  induction pointer generalizing item path with
  | nil => exact ended
  | cons byte rest ih =>
      rw [followPointer, tokens]
      by_cases zero : byte = 0
      · rw [if_pos zero, if_pos zero]
        exact ended
      rw [if_neg zero, if_neg zero]
      by_cases separator : byte = slash
      · rw [if_pos separator, if_pos separator]
        constructor
        · intro walked
          cases selected : selectChild true item rest with
          | none => simp [selected] at walked
          | some position =>
              simp only [selected] at walked
              cases child : item.child[position]? with
              | none => simp [child] at walked
              | some next =>
                  simp only [child] at walked
                  obtain ⟨below, walkedBelow, rfl⟩ := Option.map_eq_some_iff.mp walked
                  have member := List.mem_of_getElem? child
                  obtain ⟨slipped, designated⟩ :=
                    (ih (distinct.child member) (addressable.child member) below).mp walkedBelow
                  rcases (selectChild_iff distinct addressable).mp ⟨selected, child⟩ with step | step
                  · exact ⟨slipped, .step step designated⟩
                  · exact ⟨true, .slip step designated⟩
        · rintro ⟨slipped, designated⟩
          have turn : ∃ position next below slippedBelow, path = position :: below ∧
              (RfcStep item (token rest) position next ∨ SlipStep item (token rest) position next) ∧
              LooselyDesignates next (tokens rest) slippedBelow below := by
            cases designated with
            | step first below => exact ⟨_, _, _, _, rfl, Or.inl first, below⟩
            | slip first below => exact ⟨_, _, _, _, rfl, Or.inr first, below⟩
          obtain ⟨position, next, below, slippedBelow, rfl, first, designatedBelow⟩ := turn
          obtain ⟨selected, child⟩ := (selectChild_iff distinct addressable).mpr first
          have member := List.mem_of_getElem? child
          have walkedBelow := (ih (distinct.child member) (addressable.child member) below).mpr
            ⟨slippedBelow, designatedBelow⟩
          simp [selected, child, walkedBelow]
      · rw [if_neg separator, if_neg separator]
        exact ih distinct addressable path

theorem Designates.loosely {item : Item} {tokens : List Bytes} {path : Item.Path}
    (designated : Designates item tokens path) : LooselyDesignates item tokens false path := by
  induction designated with
  | here item => exact .here item
  | step first _ ih => exact .step first ih

/-- A token cannot be an RFC step and a slip step to the same element. -/
private theorem not_slip_of_rfcStep {item next other : Item} {token : Bytes} {position : Nat}
    (addressable : item.Addressable) (step : RfcStep item token position next)
    (slip : SlipStep item token position other) : False := by
  cases step with
  | element _ canonical spelled child =>
      rcases slip.loose with empty | ⟨_, huge⟩
      · exact canonical.1 empty
      · have bound := (List.getElem?_eq_some_iff.mp child).1
        have := addressable.length_lt
        unfold usizeBound at huge
        omega
  | member object _ _ _ => exact not_isObject_of_isArray slip.array object

/-- Where RFC 6901 designates a path, the walker reaches it without a slip: a slip
step needs a token that designates nothing. -/
theorem LooselyDesignates.slipped_eq_false {item : Item} {tokens : List Bytes} {slipped : Bool}
    {path : Item.Path} (loosely : LooselyDesignates item tokens slipped path)
    (addressable : item.Addressable) (designated : Designates item tokens path) :
    slipped = false := by
  induction loosely with
  | here item => rfl
  | step first _ ih =>
      cases designated with
      | step other below =>
          have children : ∀ {item next : Item} {token : Bytes} {position : Nat},
              RfcStep item token position next -> item.child[position]? = some next := by
            intro item next token position step
            cases step <;> assumption
          have same := Option.some.inj ((children first).symm.trans (children other))
          subst same
          exact ih (addressable.child (List.mem_of_getElem? (children first))) below
  | slip first _ _ =>
      cases designated with
      | step other _ => exact (not_slip_of_rfcStep addressable other first).elim

theorem LooselyDesignates.designates {item : Item} {tokens : List Bytes} {slipped : Bool}
    {path : Item.Path} (loosely : LooselyDesignates item tokens slipped path)
    (clean : slipped = false) : Designates item tokens path := by
  induction loosely with
  | here item => exact .here item
  | step first _ ih => exact .step first (ih clean)
  | slip _ _ _ => cases clean

/-! ## The walker against the RFC -/

/-- `cJSONUtils_GetPointerCaseSensitive` returns exactly what RFC 6901
designates if and only if the text is empty or starts with `/`, and no node is
reached by entering an array through an empty token or an index of `2 ^ 64` or
more. -/
theorem getPointer_exact_iff (document : Item) (pointer : Bytes) (distinct : document.DistinctKeys)
    (addressable : document.Addressable) :
    (∀ path, cjsonUtilsGetPointerCaseSensitive document pointer = some path ↔
        RfcDesignates document pointer path) ↔
      (pointer = [] ∨ first pointer = slash) ∧
        ¬ ∃ path, LooselyDesignates document (tokens pointer) true path := by
  have walk : (pointer = [] ∨ first pointer = slash) -> ∀ path,
      cjsonUtilsGetPointerCaseSensitive document pointer = some path ↔
        ∃ slipped, LooselyDesignates document (tokens pointer) slipped path := by
    intro start path
    rw [← followPointer_iff pointer distinct addressable path]
    unfold cjsonUtilsGetPointerCaseSensitive getItemFromPointer
    rcases start with rfl | leading
    · rfl
    · rw [if_pos leading]
  constructor
  · intro exact
    have start : pointer = [] ∨ first pointer = slash := by
      by_contra noSlash
      have root : cjsonUtilsGetPointerCaseSensitive document pointer = some [] := by
        unfold cjsonUtilsGetPointerCaseSensitive getItemFromPointer
        rw [if_neg (not_or.mp noSlash).2]
      exact noSlash ((exact []).mp root).1
    refine ⟨start, ?_⟩
    rintro ⟨path, slipped⟩
    have designated := (exact path).mp ((walk start path).mpr ⟨true, slipped⟩)
    cases slipped.slipped_eq_false addressable designated.2
  · rintro ⟨start, clean⟩ path
    rw [walk start path]
    constructor
    · rintro ⟨slipped, loosely⟩
      cases slipped with
      | true => exact absurd ⟨path, loosely⟩ clean
      | false => exact ⟨start, loosely.designates rfl⟩
    · rintro ⟨_, designated⟩
      exact ⟨false, designated.loosely⟩

/-- The document `[null]`. -/
def singletonArray : Item :=
  .mk { type_ := { base := .array } } [.mk { type_ := { base := .null } } [] .null] (.at 0)

private theorem singletonArray_distinctKeys : singletonArray.DistinctKeys := by
  refine .mk (fun object => by cases object) (fun item member => ?_)
  rw [List.mem_singleton.mp member]
  exact .mk (fun object => by cases object) (fun _ impossible => by cases impossible)

private theorem singletonArray_addressable : singletonArray.Addressable := by
  refine .mk (by decide) (fun item member => ?_)
  rw [List.mem_singleton.mp member]
  exact .mk (by decide) (fun _ impossible => by cases impossible)

/-- The pointer `/0` into `[null]`. -/
theorem getPointer_exact_iff_singletonArray :
    (∀ path, cjsonUtilsGetPointerCaseSensitive singletonArray [slash, 48] = some path ↔
        RfcDesignates singletonArray [slash, 48] path) ↔
      ([slash, 48] = [] ∨ first [slash, 48] = slash) ∧
        ¬ ∃ path, LooselyDesignates singletonArray (tokens [slash, 48]) true path :=
  getPointer_exact_iff singletonArray [slash, 48] singletonArray_distinctKeys
    singletonArray_addressable

/-- The pointer `/` into `[null]`: its only token is empty, which is no array
index, and the walker returns the first element. -/
theorem getPointer_empty_index :
    singletonArray.DistinctKeys ∧ singletonArray.WellLinked ∧
      ¬ (∀ path, cjsonUtilsGetPointerCaseSensitive singletonArray [slash] = some path ↔
        RfcDesignates singletonArray [slash] path) := by
  refine ⟨singletonArray_distinctKeys, ?_, fun exact => ?_⟩
  · refine .mk (fun _ => rfl) (fun item member => ?_)
    rw [List.mem_singleton.mp member]
    exact .mk (fun nonempty => absurd rfl nonempty) (fun _ impossible => by cases impossible)
  · have walked : cjsonUtilsGetPointerCaseSensitive singletonArray [slash] = some [0] := rfl
    cases ((exact [0]).mp walked).2 with
    | step turn _ =>
        cases turn with
        | element _ canonical _ _ => exact canonical.1 rfl
        | member object _ _ _ => cases object

end CJson
