import CJson.Item

/-!
# JSON values

What a tree of nodes means: a `Value` has no flags, no links and no fields that
its kind does not use, and a member name is a text instead of a pointer.  Only
well-formed trees have one.  A number is an `i32` that both number fields agree
on, a string is not NULL, and leaves have no children.
-/

namespace CJson

open CString

/-- A JSON value whose numbers are integers; members are in order, and names may
repeat.  It is the value that a printed text has to carry over to the tree that is
parsed from it. -/
inductive Value where
  | null
  | false
  | true
  | number (value : Int)
  | string (bytes : Bytes)
  | array (elements : List Value)
  | object (members : List (Bytes × Value))

/-- The values of the type `i32`. -/
def FitsInt32 (value : Int) : Prop := -2 ^ 31 ≤ value ∧ value < 2 ^ 31

instance (value : Int) : Decidable (FitsInt32 value) :=
  inferInstanceAs (Decidable (_ ∧ _))

namespace Item

/-- The value of a node without children.  A number has one if it is an integer of 32
bits and both of its fields agree; a string has one if it is not NULL; raw text has
none. -/
def leafValue? (fields : Fields) : Option Value :=
  match fields.type_.base with
  | .null => some .null
  | .false => some .false
  | .true => some .true
  | .number =>
      if fields.valuedouble = .ofInt fields.valueint ∧ FitsInt32 fields.valueint then
        some (.number fields.valueint)
      else none
  | .string => fields.valuestring.map (fun block => .string (text block))
  | _ => none

mutual

/-- The value that a tree denotes.  A scalar must have no children, and the members of
an object must have names. -/
def value? : Item -> Option Value
  | .mk fields child _ =>
      match fields.type_.base with
      | .array => (elements? child).map .array
      | .object => (members? child).map .object
      | _ => if child.isEmpty then leafValue? fields else none

def elements? : List Item -> Option (List Value)
  | [] => some []
  | item :: rest => do
      let value ← value? item
      let values ← elements? rest
      some (value :: values)

def members? : List Item -> Option (List (Bytes × Value))
  | [] => some []
  | item :: rest => do
      let name ← item.string
      let value ← value? item
      let values ← members? rest
      some ((text name, value) :: values)

end

mutual

/-- How many containers are nested in a tree. -/
def nesting : Item -> Nat
  | .mk fields child _ =>
      match fields.type_.base with
      | .array => nestingBelow child + 1
      | .object => nestingBelow child + 1
      | _ => 0

def nestingBelow : List Item -> Nat
  | [] => 0
  | item :: rest => max (nesting item) (nestingBelow rest)

end

theorem elements?_cons {item : Item} {rest : List Item} {values : List Value} :
    elements? (item :: rest) = some values ↔ ∃ value others, item.value? = some value ∧
      elements? rest = some others ∧ values = value :: others := by
  rw [elements?]
  constructor
  · intro found
    rcases Option.bind_eq_some_iff.mp found with ⟨value, valueFound, found⟩
    rcases Option.bind_eq_some_iff.mp found with ⟨others, othersFound, same⟩
    cases same
    exact ⟨value, others, valueFound, othersFound, rfl⟩
  · rintro ⟨value, others, valueFound, othersFound, rfl⟩
    rw [valueFound, othersFound]
    rfl

theorem members?_cons {item : Item} {rest : List Item} {values : List (Bytes × Value)} :
    members? (item :: rest) = some values ↔ ∃ name value others, item.string = some name ∧
      item.value? = some value ∧ members? rest = some others ∧
      values = (text name, value) :: others := by
  rw [members?]
  constructor
  · intro found
    rcases Option.bind_eq_some_iff.mp found with ⟨name, nameFound, found⟩
    rcases Option.bind_eq_some_iff.mp found with ⟨value, valueFound, found⟩
    rcases Option.bind_eq_some_iff.mp found with ⟨others, othersFound, same⟩
    cases same
    exact ⟨name, value, others, nameFound, valueFound, othersFound, rfl⟩
  · rintro ⟨name, value, others, nameFound, valueFound, othersFound, rfl⟩
    rw [nameFound, valueFound, othersFound]
    rfl

end Item
end CJson
