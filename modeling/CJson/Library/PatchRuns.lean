import CJson.Library.JsonPatch

/-!
# Patch operations and their runs

The operations of RFC 6902 other than `test`, on values with unordered objects: each
either gives a new value or is refused, and a list of them runs until one is refused.
A replacement is a removal and an addition at the same place, and a move is a removal
and an addition of what has been removed.
-/

universe u v

namespace Json

variable {Key : Type u} {Scalar : Type v} [DecidableEq Key]

/-- A container without the value behind a token. -/
def erase? (index? : Key -> Option Nat) : Json Key Scalar -> Key -> Option (Json Key Scalar)
  | array elements, token =>
      (index? token).bind fun index =>
        if index < elements.length then some (array (elements.eraseIdx index)) else none
  | object members, token =>
      if (members token).isSome then some (object (Function.update members token none)) else none
  | _, _ => none

/-- The `remove` of RFC 6902, for a path of at least one token. -/
def remove? (index? : Key -> Option Nat) (document : Json Key Scalar) (front : List Key) (last : Key) :
    Option (Json Key Scalar) := do
  let parent ← get? index? document front
  let changed ← erase? index? parent last
  replace? index? document front changed

/-- What a patch can ask for.  `whole` is an addition or a replacement with the empty
path; the other operations name a place by the tokens in front and the last one. -/
inductive Operation (Key : Type u) (Scalar : Type v) where
  | whole (new : Json Key Scalar)
  | add (front : List Key) (last : Key) (new : Json Key Scalar)
  | remove (front : List Key) (last : Key)
  | replace (front : List Key) (last : Key) (new : Json Key Scalar)
  | move (fromFront : List Key) (fromLast : Key) (front : List Key) (last : Key)
  | copy (source : List Key) (front : List Key) (last : Key)

/-- What one operation makes of a document. -/
def Operation.result? (index? : Key -> Option Nat) (append : Key) (document : Json Key Scalar) :
    Operation Key Scalar -> Option (Json Key Scalar)
  | whole new => some new
  | add front last new => add? index? append document front last new
  | remove front last => remove? index? document front last
  | replace front last new => replace? index? document (front ++ [last]) new
  | move fromFront fromLast front last => do
      let value ← get? index? document (fromFront ++ [fromLast])
      let rest ← remove? index? document fromFront fromLast
      add? index? append rest front last value
  | copy source front last => do
      let value ← get? index? document source
      add? index? append document front last value

/-- What a list of operations makes of a document. -/
def run? (index? : Key -> Option Nat) (append : Key) :
    Json Key Scalar -> List (Operation Key Scalar) -> Option (Json Key Scalar)
  | document, [] => some document
  | document, operation :: operations =>
      (operation.result? index? append document).bind fun changed => run? index? append changed operations

variable {index? : Key -> Option Nat} {append : Key} {document changed : Json Key Scalar}

omit [DecidableEq Key] in
theorem get?_append (document : Json Key Scalar) (front back : List Key) :
    get? index? document (front ++ back) = (get? index? document front).bind fun next => get? index? next back := by
  induction front generalizing document with
  | nil => rfl
  | cons token front hypothesis =>
      rw [List.cons_append, get?, get?, Option.bind_assoc]
      congr 1
      funext next
      exact hypothesis next

/-- There is a value to take out exactly where there is one to look up. -/
theorem erase?_isSome (parent : Json Key Scalar) (token : Key) :
    (erase? index? parent token).isSome = (next? index? parent token).isSome := by
  cases parent with
  | null => rfl
  | scalar value => rfl
  | object members =>
      rw [erase?, next?]
      cases members token <;> rfl
  | array elements =>
      rw [erase?, next?]
      cases index? token with
      | none => rfl
      | some index =>
          rw [Option.bind_some, Option.bind_some]
          by_cases inside : index < elements.length
          · rw [if_pos inside, List.getElem?_eq_getElem inside]
            rfl
          · rw [if_neg inside, List.getElem?_eq_none (Nat.le_of_not_lt inside)]

/-- The new value is behind the token now. -/
theorem next?_exchange {value next : Json Key Scalar} {token : Key} (there : next? index? value token = some next)
    (new : Json Key Scalar) : next? index? (exchange index? value token new) token = some new := by
  cases value with
  | null => cases there
  | scalar value => cases there
  | object members =>
      rw [exchange, next?, Function.update_self]
  | array elements =>
      rw [next?] at there
      rcases Option.bind_eq_some_iff.mp there with ⟨index, read, found⟩
      have inside := (List.getElem?_eq_some_iff.mp found).1
      rw [exchange, read]
      dsimp only
      rw [next?, read, Option.bind_some, List.getElem?_set_self inside]

/-- Another exchange at the same token takes the place of the first. -/
theorem exchange_exchange (value first second : Json Key Scalar) (token : Key) :
    exchange index? (exchange index? value token first) token second = exchange index? value token second := by
  cases value with
  | null => rfl
  | scalar value => rfl
  | object members => rw [exchange, exchange, exchange, Function.update_idem]
  | array elements =>
      cases read : index? token with
      | none => simp [exchange, read]
      | some index => simp [exchange, read]

theorem replace?_cons (document : Json Key Scalar) (token : Key) (rest : List Key) (new : Json Key Scalar) :
    replace? index? document (token :: rest) new = (next? index? document token).bind fun next =>
      (replace? index? next rest new).map (exchange index? document token) := by
  rw [replace?, Option.bind_eq_bind]
  congr 1
  funext next
  cases replace? index? next rest new <;> rfl

/-- What has been put in the place of a value is there. -/
theorem get?_replace? {path : List Key} {new : Json Key Scalar}
    (replaced : replace? index? document path new = some changed) : get? index? changed path = some new := by
  induction path generalizing document changed with
  | nil =>
      cases replaced
      rfl
  | cons token rest hypothesis =>
      rw [replace?_cons] at replaced
      rcases Option.bind_eq_some_iff.mp replaced with ⟨next, there, replaced⟩
      rcases Option.map_eq_some_iff.mp replaced with ⟨below, changes, rfl⟩
      rw [get?, next?_exchange there, Option.bind_some]
      exact hypothesis changes

/-- A second replacement at the same place is as good as the only one. -/
theorem replace?_replace? {path : List Key} {first : Json Key Scalar}
    (replaced : replace? index? document path first = some changed) (second : Json Key Scalar) :
    replace? index? changed path second = replace? index? document path second := by
  induction path generalizing document changed with
  | nil => rfl
  | cons token rest hypothesis =>
      rw [replace?_cons] at replaced
      rcases Option.bind_eq_some_iff.mp replaced with ⟨next, there, replaced⟩
      rcases Option.map_eq_some_iff.mp replaced with ⟨below, changes, rfl⟩
      rw [replace?_cons, replace?_cons, next?_exchange there, there, Option.bind_some, Option.bind_some,
        hypothesis changes]
      congr 1
      funext final
      exact exchange_exchange document below final token

/-- Replacing a value is exchanging it in its container. -/
theorem replace?_concat (document : Json Key Scalar) (front : List Key) (last : Key) (new : Json Key Scalar) :
    replace? index? document (front ++ [last]) new = (get? index? document front).bind fun parent =>
      (next? index? parent last).bind fun _ => replace? index? document front (exchange index? parent last new) := by
  induction front generalizing document with
  | nil =>
      rw [List.nil_append, replace?_cons]
      rfl
  | cons token front hypothesis =>
      rw [List.cons_append, replace?_cons, get?, Option.bind_assoc]
      cases there : next? index? document token with
      | none => rfl
      | some next =>
          rw [Option.bind_some, Option.bind_some, hypothesis]
          cases get? index? next front with
          | none => rfl
          | some parent =>
              rw [Option.bind_some, Option.bind_some, replace?_cons, there, Option.bind_some]
              cases next? index? parent last <;> rfl

/-- What has been taken out can be put in again, and anything else in its place. -/
theorem insert?_erase? {parent rest : Json Key Scalar} {token : Key} (unread : index? append = none)
    (erased : erase? index? parent token = some rest) (new : Json Key Scalar) :
    insert? index? append rest token new = some (exchange index? parent token new) := by
  cases parent with
  | null => cases erased
  | scalar value => cases erased
  | object members =>
      rw [erase?] at erased
      split at erased
      · cases erased
        rw [insert?, exchange, Function.update_idem]
      · cases erased
  | array elements =>
      rw [erase?] at erased
      rcases Option.bind_eq_some_iff.mp erased with ⟨index, read, erased⟩
      split at erased
      · rename_i inside
        cases erased
        have different : token ≠ append := by
          rintro rfl
          rw [unread] at read
          cases read
        have room : index ≤ (elements.eraseIdx index).length := by
          rw [List.length_eraseIdx_of_lt inside]
          omega
        rw [insert?, if_neg different, read]
        dsimp only
        rw [if_pos room, exchange, read, List.insertIdx_eraseIdx_self (Nat.ne_of_lt inside)]
      · cases erased

/-- A replacement is a removal, and an addition at the same place. -/
theorem add?_remove? {front : List Key} {last : Key} {rest : Json Key Scalar} (unread : index? append = none)
    (removed : remove? index? document front last = some rest) (new : Json Key Scalar) :
    add? index? append rest front last new = replace? index? document (front ++ [last]) new := by
  rw [remove?, Option.bind_eq_bind] at removed
  rcases Option.bind_eq_some_iff.mp removed with ⟨parent, found, removed⟩
  rcases Option.bind_eq_some_iff.mp removed with ⟨without, erased, replaced⟩
  have present : (erase? index? parent last).isSome = (next? index? parent last).isSome := erase?_isSome parent last
  rw [erased, Option.isSome_some, eq_comm, Option.isSome_iff_exists] at present
  rcases present with ⟨old, there⟩
  rw [add?, get?_replace? replaced, Option.bind_eq_bind, Option.bind_some, insert?_erase? unread erased,
    Option.bind_some, replace?_replace? replaced, replace?_concat, found, Option.bind_some, there, Option.bind_some]

/-- There is something to remove exactly where there is something. -/
theorem remove?_isSome (document : Json Key Scalar) (front : List Key) (last : Key) :
    (remove? index? document front last).isSome = (get? index? document (front ++ [last])).isSome := by
  rw [remove?, get?_append, Option.bind_eq_bind]
  cases found : get? index? document front with
  | none => rfl
  | some parent =>
      rw [Option.bind_some, Option.bind_some, get?]
      have present : (erase? index? parent last).isSome = (next? index? parent last).isSome :=
        erase?_isSome parent last
      cases erased : erase? index? parent last with
      | none =>
          rw [erased] at present
          rw [Option.isSome_none, eq_comm, Option.isSome_eq_false_iff, Option.isNone_iff_eq_none] at present
          rw [present]
          rfl
      | some without =>
          rw [erased, Option.isSome_some, eq_comm, Option.isSome_iff_exists] at present
          rcases present with ⟨old, there⟩
          rw [Option.bind_some, replace?_isSome found, there]
          rfl

end Json
