import CJson.Library.Json
import Mathlib.Data.List.InsertIdx

/-!
# Adding a value at a path of tokens

A token names a member of an object.  Whether it also names an element of an array
is left to a parameter that reads tokens as indices, so that what a token means
depends on the value it is applied to.  One more token stands for the place behind
the last element.  The additions are those of RFC 6902.
-/

universe u v

namespace Json

variable {Key : Type u} {Scalar : Type v}

/-- The value behind a token. -/
def next? (index? : Key -> Option Nat) : Json Key Scalar -> Key -> Option (Json Key Scalar)
  | array elements, token => (index? token).bind fun index => elements[index]?
  | object members, token => members token
  | _, _ => none

/-- The value at the end of a path. -/
def get? (index? : Key -> Option Nat) : Json Key Scalar -> List Key -> Option (Json Key Scalar)
  | value, [] => some value
  | value, token :: rest => (next? index? value token).bind fun next => get? index? next rest

/-- A container that has room for a value behind a token.  An array takes indices up
to its length, and the token for the place behind its last element; an object takes
every name. -/
def Accepts (index? : Key -> Option Nat) (append : Key) : Json Key Scalar -> Key -> Prop
  | array elements, token =>
      token = append ∨ ∃ index, index? token = some index ∧ index ≤ elements.length
  | object _, _ => True
  | _, _ => False

variable [DecidableEq Key]

/-- A container with another value behind a token. -/
def exchange (index? : Key -> Option Nat) :
    Json Key Scalar -> Key -> Json Key Scalar -> Json Key Scalar
  | array elements, token, new =>
      match index? token with
      | some index => array (elements.set index new)
      | none => array elements
  | object members, token, new => object (Function.update members token (some new))
  | value, _, _ => value

/-- Another value at the end of a path that leads somewhere. -/
def replace? (index? : Key -> Option Nat) :
    Json Key Scalar -> List Key -> Json Key Scalar -> Option (Json Key Scalar)
  | _, [], new => some new
  | value, token :: rest, new => do
      let next ← next? index? value token
      let changed ← replace? index? next rest new
      some (exchange index? value token changed)

/-- A container with a new value: in front of the element of that index, behind the
last element, or under that name. -/
def insert? (index? : Key -> Option Nat) (append : Key) :
    Json Key Scalar -> Key -> Json Key Scalar -> Option (Json Key Scalar)
  | array elements, token, new =>
      if token = append then some (array (elements ++ [new]))
      else
        match index? token with
        | some index =>
            if index ≤ elements.length then some (array (elements.insertIdx index new)) else none
        | none => none
  | object members, token, new => some (object (Function.update members token (some new)))
  | _, _, _ => none

/-- The `add` of RFC 6902, for a path of at least one token. -/
def add? (index? : Key -> Option Nat) (append : Key) (document : Json Key Scalar) (front : List Key)
    (last : Key) (new : Json Key Scalar) : Option (Json Key Scalar) := do
  let parent ← get? index? document front
  let changed ← insert? index? append parent last new
  replace? index? document front changed

variable {index? : Key -> Option Nat} {append : Key}

/-- There is room for a value exactly where it can be put in. -/
theorem insert?_isSome_iff (parent : Json Key Scalar) (token : Key) (new : Json Key Scalar) :
    (insert? index? append parent token new).isSome = true ↔ Accepts index? append parent token := by
  cases parent with
  | null => exact iff_of_false Bool.false_ne_true id
  | scalar value => exact iff_of_false Bool.false_ne_true id
  | object members => exact iff_of_true rfl trivial
  | array elements =>
      rw [insert?, Accepts]
      by_cases last : token = append
      · rw [if_pos last]
        exact iff_of_true rfl (Or.inl last)
      · rw [if_neg last, or_iff_right last]
        cases read : index? token with
        | none => simp
        | some index =>
            by_cases room : index ≤ elements.length <;> simp [room]

/-- What can be looked up can be replaced. -/
theorem replace?_isSome {document : Json Key Scalar} {path : List Key} {old : Json Key Scalar}
    (found : get? index? document path = some old) (new : Json Key Scalar) :
    (replace? index? document path new).isSome = true := by
  induction path generalizing document with
  | nil => rfl
  | cons token rest ih =>
      rw [get?] at found
      rcases Option.bind_eq_some_iff.mp found with ⟨next, there, found⟩
      rcases Option.isSome_iff_exists.mp (ih found) with ⟨changed, replaced⟩
      rw [replace?, there, Option.bind_eq_bind, Option.bind_some, replaced]
      rfl

/-- An addition succeeds exactly if its parent exists and has room: an object always
has, an array for an index up to its length and for the token of its end. -/
theorem add?_isSome_iff (document : Json Key Scalar) (front : List Key) (last : Key)
    (new : Json Key Scalar) :
    (add? index? append document front last new).isSome = true ↔
      ∃ parent, get? index? document front = some parent ∧ Accepts index? append parent last := by
  rw [add?]
  cases found : get? index? document front with
  | none => simp
  | some parent =>
      rw [Option.bind_eq_bind, Option.bind_some]
      have room := @insert?_isSome_iff _ _ _ index? append parent last new
      cases inserted : insert? index? append parent last new with
      | none =>
          rw [inserted] at room
          apply iff_of_false
          · rw [Option.bind_none]
            exact Bool.false_ne_true
          · rintro ⟨other, same, accepts⟩
            cases same
            exact Bool.false_ne_true (room.mpr accepts)
      | some changed =>
          rw [inserted] at room
          exact iff_of_true (replace?_isSome found changed) ⟨parent, rfl, room.mp rfl⟩

end Json
