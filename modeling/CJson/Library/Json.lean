import Mathlib.Data.List.Forall2
import Mathlib.Logic.Function.Basic

/-!
# JSON values with unordered objects

An object is the function that says which value, if any, stands under a name.  So
the order of the members does not count, and no name occurs twice.  Scalars other
than `null` are left open.
-/

universe u v

/-- Two lists that are related one by one. -/
theorem forall₂_iff_getElem? {α : Type u} {β : Type v} {related : α -> β -> Prop} {items : List α}
    {others : List β} :
    List.Forall₂ related items others ↔ items.length = others.length ∧
      ∀ (index : Nat) (item : α) (other : β), items[index]? = some item -> others[index]? = some other ->
        related item other := by
  rw [List.forall₂_iff_get]
  constructor
  · rintro ⟨length, pairs⟩
    refine ⟨length, fun index item other here there => ?_⟩
    rcases List.getElem?_eq_some_iff.mp here with ⟨bound, rfl⟩
    rcases List.getElem?_eq_some_iff.mp there with ⟨otherBound, rfl⟩
    exact pairs index bound otherBound
  · rintro ⟨length, pairs⟩
    refine ⟨length, fun index bound otherBound => ?_⟩
    exact pairs index _ _ (List.getElem?_eq_getElem bound) (List.getElem?_eq_getElem otherBound)

/-- A JSON value over names and scalars.  The members of an object are a partial
function on names, so that neither their order nor a repetition can be told. -/
inductive Json (Key : Type u) (Scalar : Type v) where
  | null
  | scalar (value : Scalar)
  | array (elements : List (Json Key Scalar))
  | object (members : Key -> Option (Json Key Scalar))

namespace Json

variable {Key : Type u} {Scalar : Type v}

/-- The value under a name, if there is an object at all. -/
def member : Option (Json Key Scalar) -> Key -> Option (Json Key Scalar)
  | some (object members), name => members name
  | _, _ => none

@[simp] theorem member_object (members : Key -> Option (Json Key Scalar)) :
    member (some (object members)) = members := rfl

@[simp] theorem member_none : member (none : Option (Json Key Scalar)) = fun _ => none := rfl

/-- Nothing but an object has members. -/
theorem member_of_not_object {value : Json Key Scalar} (notObject : ∀ members, value ≠ object members) :
    member (some value) = fun _ => none := by
  cases value with
  | null => rfl
  | scalar value => rfl
  | array elements => rfl
  | object members => exact absurd rfl (notObject members)

/-! ## Values that are alike -/

/-- Values that are the same but for scalars that are related to each other. -/
inductive Like (related : Scalar -> Scalar -> Prop) : Json Key Scalar -> Json Key Scalar -> Prop where
  | null : Like related null null
  | scalar {value other : Scalar} (here : related value other) : Like related (scalar value) (scalar other)
  | array {elements others : List (Json Key Scalar)} (length : elements.length = others.length)
      (below : ∀ (index : Nat) (element other : Json Key Scalar), elements[index]? = some element ->
        others[index]? = some other -> Like related element other) :
      Like related (array elements) (array others)
  | object {members others : Key -> Option (Json Key Scalar)}
      (names : ∀ name, (members name).isSome = (others name).isSome)
      (below : ∀ name value other, members name = some value -> others name = some other ->
        Like related value other) :
      Like related (object members) (object others)

/-- All the scalars in a value are of some kind. -/
inductive Only (kind : Scalar -> Prop) : Json Key Scalar -> Prop where
  | null : Only kind null
  | scalar {value : Scalar} (here : kind value) : Only kind (scalar value)
  | array {elements : List (Json Key Scalar)} (below : ∀ element ∈ elements, Only kind element) :
      Only kind (array elements)
  | object {members : Key -> Option (Json Key Scalar)}
      (below : ∀ name value, members name = some value -> Only kind value) : Only kind (object members)

theorem Only.imp {kind other : Scalar -> Prop} {value : Json Key Scalar} (only : Only kind value)
    (implies : ∀ scalar, kind scalar -> other scalar) : Only other value := by
  induction only with
  | null => exact .null
  | scalar here => exact .scalar (implies _ here)
  | array _ ih => exact .array ih
  | object _ ih => exact .object ih

section Likeness

variable {related similar : Scalar -> Scalar -> Prop} {kind : Scalar -> Prop} {value other : Json Key Scalar}

theorem like_scalar_iff {value other : Scalar} :
    Like related (scalar value : Json Key Scalar) (scalar other) ↔ related value other := by
  constructor
  · intro like
    cases like with
    | scalar here => exact here
  · exact .scalar

theorem like_array_iff {elements others : List (Json Key Scalar)} :
    Like related (array elements) (array others) ↔ List.Forall₂ (Like related) elements others := by
  rw [forall₂_iff_getElem?]
  constructor
  · intro like
    cases like with
    | array length below => exact ⟨length, below⟩
  · rintro ⟨length, below⟩
    exact .array length below

theorem like_object_iff {members others : Key -> Option (Json Key Scalar)} :
    Like related (object members) (object others) ↔
      ∀ name, Option.Rel (Like related) (members name) (others name) := by
  constructor
  · intro like name
    cases like with
    | object names below =>
        have present := names name
        cases here : members name with
        | none =>
            rw [here, Option.isSome_none, eq_comm, Option.isSome_eq_false_iff,
              Option.isNone_iff_eq_none] at present
            rw [present]
            exact .none
        | some value =>
            rw [here, Option.isSome_some, eq_comm, Option.isSome_iff_exists] at present
            rcases present with ⟨other, there⟩
            rw [there]
            exact .some (below name value other here there)
  · intro each
    refine .object (fun name => ?_) (fun name value other here there => ?_)
    · have both := each name
      generalize members name = value at both ⊢
      generalize others name = other at both ⊢
      cases both <;> rfl
    · have both := each name
      rw [here, there] at both
      cases both with
      | some like => exact like

/-- A relation that scalars of a kind have to themselves. -/
theorem Like.refl (only : Only kind value) (here : ∀ scalar, kind scalar -> related scalar scalar) :
    Like related value value := by
  induction only with
  | null => exact .null
  | scalar allowed => exact .scalar (here _ allowed)
  | array _ ih =>
      refine .array rfl fun index element other there same => ?_
      cases there.symm.trans same
      exact ih element (List.mem_of_getElem? there)
  | object _ ih =>
      refine .object (fun _ => rfl) fun name element other there same => ?_
      cases there.symm.trans same
      exact ih name element there

theorem Like.symm (like : Like related value other)
    (symmetric : ∀ first second, related first second -> related second first) :
    Like related other value := by
  induction like with
  | null => exact .null
  | scalar here => exact .scalar (symmetric _ _ here)
  | array length _ ih =>
      refine .array length.symm fun index _ _ there here => ?_
      exact ih index _ _ here there
  | object names _ ih =>
      refine .object (fun name => (names name).symm) fun name _ _ there here => ?_
      exact ih name _ _ here there

/-- A relation that is equality on scalars of a kind is equality on values of that kind. -/
theorem like_iff_eq (only : Only kind value) (otherOnly : Only kind other)
    (decides : ∀ first second, kind first -> kind second -> (related first second ↔ first = second)) :
    Like related value other ↔ value = other := by
  constructor
  · intro like
    induction like with
    | null => rfl
    | scalar here =>
        cases only with
        | scalar allowed =>
            cases otherOnly with
            | scalar otherAllowed => exact congrArg _ ((decides _ _ allowed otherAllowed).mp here)
    | array length _ ih =>
        cases only with
        | array below =>
            cases otherOnly with
            | array otherBelow =>
                apply congrArg
                apply List.ext_getElem length
                intro index bound otherBound
                exact ih index _ _ (List.getElem?_eq_getElem bound) (List.getElem?_eq_getElem otherBound)
                  (below _ (List.getElem_mem bound)) (otherBelow _ (List.getElem_mem otherBound))
    | @object members others names _ ih =>
        cases only with
        | object below =>
            cases otherOnly with
            | object otherBelow =>
                apply congrArg
                funext name
                have present := names name
                cases here : members name with
                | none =>
                    rw [here, Option.isSome_none, eq_comm, Option.isSome_eq_false_iff,
                      Option.isNone_iff_eq_none] at present
                    exact present.symm
                | some value =>
                    rw [here, Option.isSome_some, eq_comm, Option.isSome_iff_exists] at present
                    rcases present with ⟨other, there⟩
                    rw [there, ih name _ _ here there (below name _ here) (otherBelow name _ there)]
  · rintro rfl
    exact .refl only fun scalar allowed => (decides scalar scalar allowed allowed).mpr rfl

end Likeness

/-! ## Steps into a value -/

/-- A step into a value: an element of an array, or a member of an object. -/
inductive Step (Key : Type u) where
  | element (index : Nat)
  | member (name : Key)

/-- The value behind a step. -/
def child? : Json Key Scalar -> Step Key -> Option (Json Key Scalar)
  | array elements, .element index => elements[index]?
  | object members, .member name => members name
  | _, _ => none

/-! ## Merge patches -/

mutual

/-- `MergePatch` of RFC 7396. -/
def mergePatch (target : Option (Json Key Scalar)) : Json Key Scalar -> Json Key Scalar
  | null => null
  | scalar value => scalar value
  | array elements => array elements
  | object patch => object (fun name => mergeMember (member target name) (patch name))

/-- What a merge patch makes of one member: `null` takes it away. -/
def mergeMember (target : Option (Json Key Scalar)) :
    Option (Json Key Scalar) -> Option (Json Key Scalar)
  | none => target
  | some null => none
  | some value => some (mergePatch target value)

end

@[simp] theorem mergeMember_none (target : Option (Json Key Scalar)) :
    mergeMember target none = target := by
  rw [mergeMember]

@[simp] theorem mergeMember_null (target : Option (Json Key Scalar)) :
    mergeMember target (some null) = none := by
  rw [mergeMember]

theorem mergeMember_some {value : Json Key Scalar} (isValue : value ≠ null)
    (target : Option (Json Key Scalar)) :
    mergeMember target (some value) = some (mergePatch target value) := by
  cases value with
  | null => exact absurd rfl isValue
  | scalar value => rw [mergeMember]; exact fun impossible => nomatch impossible
  | array elements => rw [mergeMember]; exact fun impossible => nomatch impossible
  | object members => rw [mergeMember]; exact fun impossible => nomatch impossible

/-- No member of an object is `null`, where arrays are not looked into.  These are the
values that a merge patch can produce by itself: `null` means removal there. -/
inductive NoNulls : Json Key Scalar -> Prop where
  | null : NoNulls null
  | scalar (value : Scalar) : NoNulls (scalar value)
  | array (elements : List (Json Key Scalar)) : NoNulls (array elements)
  | object {members : Key -> Option (Json Key Scalar)} (present : ∀ name, members name ≠ some null)
      (below : ∀ name value, members name = some value -> NoNulls value) : NoNulls (object members)

/-- Merged into nothing, such a value comes out unchanged. -/
theorem mergePatch_of_noNulls {target : Option (Json Key Scalar)} {value : Json Key Scalar}
    (noNulls : NoNulls value) (nothing : member target = fun _ => none) : mergePatch target value = value := by
  induction noNulls generalizing target with
  | null => rw [mergePatch]
  | scalar value => rw [mergePatch]
  | array elements => rw [mergePatch]
  | @object members present _ ih =>
      rw [mergePatch]
      apply congrArg
      funext name
      cases here : members name with
      | none => rw [nothing, mergeMember_none]
      | some value =>
          have isValue : value ≠ null := by
            rintro rfl
            exact present name here
          rw [mergeMember_some isValue, nothing, ih name value here member_none]

theorem mergePatch_of_not_object {value : Json Key Scalar} (notObject : ∀ members, value ≠ object members)
    (target : Option (Json Key Scalar)) : mergePatch target value = value := by
  cases value with
  | null => rw [mergePatch]
  | scalar value => rw [mergePatch]
  | array elements => rw [mergePatch]
  | object members => exact absurd rfl (notObject members)

end Json
