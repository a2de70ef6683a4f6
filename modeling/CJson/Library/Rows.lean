import Mathlib.Data.List.Forall2

/-!
# Lists side by side

Two lists whose elements are related place by place stay so when both of them
are edited at the same place.
-/

universe u v

namespace List.Forall₂

variable {α : Type u} {β : Type v} {R S : α -> β -> Prop} {as : List α} {bs : List β}

/-- A relation may be weakened using that the left element is one of the list. -/
theorem imp_mem (each : Forall₂ R as bs) (implies : ∀ a ∈ as, ∀ b, R a b -> S a b) : Forall₂ S as bs := by
  induction each with
  | nil => exact .nil
  | cons first rest hypothesis =>
      refine .cons (implies _ mem_cons_self _ first) (hypothesis ?_)
      intro a inside
      exact implies a (mem_cons_of_mem _ inside)

/-- What stands at a position of the one list is related to what stands at the same
position of the other. -/
theorem getElem? (each : Forall₂ R as bs) {position : Nat} {a : α} (there : as[position]? = some a) :
    ∃ b, bs[position]? = some b ∧ R a b := by
  induction each generalizing position with
  | nil => cases there
  | cons first rest hypothesis =>
      cases position with
      | zero =>
          cases there
          exact ⟨_, rfl, first⟩
      | succ position => exact hypothesis there

/-- Related elements may be put into both lists at one position, taken out of both, or
exchanged in both. -/
theorem insertIdx (each : Forall₂ R as bs) {a : α} {b : β} (related : R a b) (position : Nat) :
    Forall₂ R (as.insertIdx position a) (bs.insertIdx position b) := by
  induction position generalizing as bs with
  | zero => exact .cons related each
  | succ position hypothesis =>
      cases each with
      | nil => exact .nil
      | cons first rest => exact .cons first (hypothesis rest)

theorem eraseIdx (each : Forall₂ R as bs) (position : Nat) :
    Forall₂ R (as.eraseIdx position) (bs.eraseIdx position) := by
  induction each generalizing position with
  | nil => exact .nil
  | cons first rest hypothesis =>
      cases position with
      | zero => exact rest
      | succ position => exact .cons first (hypothesis position)

theorem set (each : Forall₂ R as bs) {a : α} {b : β} (related : R a b) (position : Nat) :
    Forall₂ R (as.set position a) (bs.set position b) := by
  induction each generalizing position with
  | nil => exact .nil
  | cons first rest hypothesis =>
      cases position with
      | zero => exact .cons related rest
      | succ position => exact .cons first (hypothesis position)

/-- At one place another relation holds, and it follows from the old one at the others. -/
theorem exchange (each : Forall₂ R as bs) (distinct : as.Nodup) {position : Nat} {a : α} {b : β}
    (there : as[position]? = some a) (related : S a b)
    (others : ∀ other ∈ as, other ≠ a -> ∀ b, R other b -> S other b) : Forall₂ S as (bs.set position b) := by
  induction each generalizing position with
  | nil => cases there
  | @cons first _ rest _ here each hypothesis =>
      have apart := nodup_cons.mp distinct
      cases position with
      | zero =>
          cases there
          refine .cons related (each.imp_mem fun other inside => others other (mem_cons_of_mem _ inside) ?_)
          rintro rfl
          exact apart.1 inside
      | succ position =>
          refine .cons (others first mem_cons_self ?_ _ here)
            (hypothesis apart.2 there fun other inside => others other (mem_cons_of_mem _ inside))
          rintro rfl
          exact apart.1 (mem_of_getElem? there)

end List.Forall₂
