import Mathlib.Data.List.Forall2

/-!
# Walking along two lists together

Two lists are walked along together by a comparison of their first elements: the
smaller of the two is passed, and two that are equal are passed together.  Nothing
is assumed about the lists.  If they are not in the order of the comparison, two
elements that belong together may be passed at different times, and then it may
matter which of them comes first.
-/

universe u v w

namespace Lockstep

variable {α : Type u} {β : Type v} {κ : Type w}

/-- What is passed at a time when two lists are walked along together: an element of
the one, of the other, or one of each. -/
inductive Turn (α : Type u) (β : Type v) where
  | left (first : α)
  | right (second : β)
  | both (first : α) (second : β)

namespace Turn

def left? : Turn α β -> Option α
  | left first => some first
  | right _ => none
  | both first _ => some first

def right? : Turn α β -> Option β
  | left _ => none
  | right second => some second
  | both _ second => some second

/-- The key of what is passed. -/
def key (leftKey : α -> κ) (rightKey : β -> κ) : Turn α β -> κ
  | left first => leftKey first
  | right second => rightKey second
  | both first _ => leftKey first

/-- An element of the second list is passed before the element of the first list that
it belongs to. -/
def Overtakes (leftKey : α -> κ) (rightKey : β -> κ) : Turn α β -> Turn α β -> Prop
  | right second, left first => leftKey first = rightKey second
  | _, _ => False

/-- Turns that pass related elements, on the same side or sides. -/
inductive Rel {γ : Type u} {δ : Type v} (related : α -> γ -> Prop) (otherwise : β -> δ -> Prop) :
    Turn α β -> Turn γ δ -> Prop where
  | left {first : α} {third : γ} (here : related first third) :
      Rel related otherwise (.left first) (.left third)
  | right {second : β} {fourth : δ} (here : otherwise second fourth) :
      Rel related otherwise (.right second) (.right fourth)
  | both {first : α} {third : γ} {second : β} {fourth : δ} (here : related first third)
      (there : otherwise second fourth) : Rel related otherwise (.both first second) (.both third fourth)

end Turn

/-- The walk along two lists. -/
def walk (compare : α -> β -> Int) : List α -> List β -> List (Turn α β)
  | [], [] => []
  | first :: as, [] => .left first :: walk compare as []
  | [], second :: bs => .right second :: walk compare [] bs
  | first :: as, second :: bs =>
      if compare first second < 0 then .left first :: walk compare as (second :: bs)
      else if 0 < compare first second then .right second :: walk compare (first :: as) bs
      else .both first second :: walk compare as bs
termination_by as bs => as.length + bs.length

section Walk

variable {compare : α -> β -> Int} {as : List α} {bs : List β}

/-- The first list is passed in its order. -/
theorem filterMap_left? (compare : α -> β -> Int) (as : List α) (bs : List β) :
    (walk compare as bs).filterMap Turn.left? = as := by
  induction as, bs using walk.induct compare with
  | case1 => rw [walk, List.filterMap_nil]
  | case2 first as ih =>
      rw [walk]
      exact congrArg (List.cons first) ih
  | case3 second bs ih =>
      rw [walk]
      exact ih
  | case4 first as second bs less ih =>
      rw [walk, if_pos less]
      exact congrArg (List.cons first) ih
  | case5 first as second bs notLess more ih =>
      rw [walk, if_neg notLess, if_pos more]
      exact ih
  | case6 first as second bs notLess notMore ih =>
      rw [walk, if_neg notLess, if_neg notMore]
      exact congrArg (List.cons first) ih

/-- And so is the second one. -/
theorem filterMap_right? (compare : α -> β -> Int) (as : List α) (bs : List β) :
    (walk compare as bs).filterMap Turn.right? = bs := by
  induction as, bs using walk.induct compare with
  | case1 => rw [walk, List.filterMap_nil]
  | case2 first as ih =>
      rw [walk]
      exact ih
  | case3 second bs ih =>
      rw [walk]
      exact congrArg (List.cons second) ih
  | case4 first as second bs less ih =>
      rw [walk, if_pos less]
      exact ih
  | case5 first as second bs notLess more ih =>
      rw [walk, if_neg notLess, if_pos more]
      exact congrArg (List.cons second) ih
  | case6 first as second bs notLess notMore ih =>
      rw [walk, if_neg notLess, if_neg notMore]
      exact congrArg (List.cons second) ih

theorem mem_left {turn : Turn α β} (member : turn ∈ walk compare as bs) {first : α}
    (passes : turn.left? = some first) : first ∈ as := by
  rw [← filterMap_left? compare as bs]
  exact List.mem_filterMap.mpr ⟨turn, member, passes⟩

theorem mem_right {turn : Turn α β} (member : turn ∈ walk compare as bs) {second : β}
    (passes : turn.right? = some second) : second ∈ bs := by
  rw [← filterMap_right? compare as bs]
  exact List.mem_filterMap.mpr ⟨turn, member, passes⟩

/-- What is passed together is equal. -/
theorem compare_of_both {first : α} {second : β} (member : .both first second ∈ walk compare as bs) :
    compare first second = 0 := by
  induction as, bs using walk.induct compare with
  | case1 =>
      rw [walk] at member
      cases member
  | case2 _ as ih =>
      rw [walk, List.mem_cons] at member
      exact ih (member.resolve_left fun same => nomatch same)
  | case3 _ bs ih =>
      rw [walk, List.mem_cons] at member
      exact ih (member.resolve_left fun same => nomatch same)
  | case4 _ as _ bs less ih =>
      rw [walk, if_pos less, List.mem_cons] at member
      exact ih (member.resolve_left fun same => nomatch same)
  | case5 _ as _ bs notLess more ih =>
      rw [walk, if_neg notLess, if_pos more, List.mem_cons] at member
      exact ih (member.resolve_left fun same => nomatch same)
  | case6 here as there bs notLess notMore ih =>
      rw [walk, if_neg notLess, if_neg notMore, List.mem_cons] at member
      rcases member with same | later
      · cases same
        omega
      · exact ih later

/-- Lists that are related one by one are walked along in the same way, provided that
the comparison does not tell related elements apart. -/
theorem walk_rel {γ : Type u} {δ : Type v} {related : α -> γ -> Prop} {otherwise : β -> δ -> Prop}
    {compare' : γ -> δ -> Int} {cs : List γ} {ds : List δ}
    (same : ∀ first third second fourth, related first third -> otherwise second fourth ->
      compare first second = compare' third fourth)
    (lefts : List.Forall₂ related as cs) (rights : List.Forall₂ otherwise bs ds) :
    List.Forall₂ (Turn.Rel related otherwise) (walk compare as bs) (walk compare' cs ds) := by
  induction as, bs using walk.induct compare generalizing cs ds with
  | case1 =>
      cases lefts
      cases rights
      rw [walk, walk]
      exact .nil
  | case2 first as ih =>
      cases rights
      cases lefts with
      | cons head tail =>
          rw [walk, walk]
          exact .cons (.left head) (ih tail .nil)
  | case3 second bs ih =>
      cases lefts
      cases rights with
      | cons head tail =>
          rw [walk, walk]
          exact .cons (.right head) (ih .nil tail)
  | case4 first as second bs less ih =>
      cases lefts with
      | cons head tail =>
          cases rights with
          | cons otherHead otherTail =>
              rw [walk, walk, ← same _ _ _ _ head otherHead, if_pos less, if_pos less]
              exact .cons (.left head) (ih tail (.cons otherHead otherTail))
  | case5 first as second bs notLess more ih =>
      cases lefts with
      | cons head tail =>
          cases rights with
          | cons otherHead otherTail =>
              rw [walk, walk, ← same _ _ _ _ head otherHead, if_neg notLess, if_neg notLess, if_pos more,
                if_pos more]
              exact .cons (.right otherHead) (ih (.cons head tail) otherTail)
  | case6 first as second bs notLess notMore ih =>
      cases lefts with
      | cons head tail =>
          cases rights with
          | cons otherHead otherTail =>
              rw [walk, walk, ← same _ _ _ _ head otherHead, if_neg notLess, if_neg notLess,
                if_neg notMore, if_neg notMore]
              exact .cons (.both head otherHead) (ih tail otherTail)

end Walk

/-! ## One key at a time -/

section Keys

variable {leftKey : α -> κ} {rightKey : β -> κ} {turns : List (Turn α β)}

/-- A list in which elements of different keys do not stand in each other's way. -/
theorem pairwise_iff_filter [DecidableEq κ] {related : α -> α -> Prop} {view : α -> κ} {items : List α}
    (apart : ∀ first second, view first ≠ view second -> related first second) :
    items.Pairwise related ↔ ∀ value, (items.filter fun item => view item = value).Pairwise related := by
  constructor
  · exact fun all value => all.sublist List.filter_sublist
  · intro each
    rw [List.pairwise_iff_forall_sublist]
    intro first second pair
    by_cases same : view first = view second
    · have kept := pair.filter fun item => view item = view second
      have all : ([first, second].filter fun item => view item = view second) = [first, second] := by
        rw [List.filter_eq_self]
        simp [same]
      rw [all] at kept
      exact List.pairwise_iff_forall_sublist.mp (each (view second)) kept
    · exact apart first second same

/-- No element of the second list is passed before its partner in the first one. -/
def Ordered (leftKey : α -> κ) (rightKey : β -> κ) (turns : List (Turn α β)) : Prop :=
  turns.Pairwise fun earlier later => ¬ earlier.Overtakes leftKey rightKey later

theorem ordered_iff_filter [DecidableEq κ] :
    Ordered leftKey rightKey turns ↔
      ∀ value, Ordered leftKey rightKey (turns.filter fun turn => turn.key leftKey rightKey = value) := by
  apply pairwise_iff_filter
  intro first second apart overtakes
  cases first with
  | right there =>
      cases second with
      | left here => exact apart (Eq.symm overtakes)
      | right => exact overtakes
      | both => exact overtakes
  | left => exact overtakes
  | both => exact overtakes

/-- The ways in which the elements of one key can be passed, if there are no two of them in
either list. -/
inductive Passage : List (Turn α β) -> Prop where
  | none : Passage []
  | left (first : α) : Passage [.left first]
  | right (second : β) : Passage [.right second]
  | both (first : α) (second : β) : Passage [.both first second]
  | leftFirst (first : α) (second : β) : Passage [.left first, .right second]
  | rightFirst (first : α) (second : β) : Passage [.right second, .left first]

private theorem eq_nil_of_none (lefts : (turns.filterMap Turn.left?).length = 0)
    (rights : (turns.filterMap Turn.right?).length = 0) : turns = [] := by
  cases turns with
  | nil => rfl
  | cons turn rest =>
      cases turn with
      | left => simp [Turn.left?] at lefts
      | right => simp [Turn.right?] at rights
      | both => simp [Turn.left?] at lefts

theorem passage_of_short (lefts : (turns.filterMap Turn.left?).length ≤ 1)
    (rights : (turns.filterMap Turn.right?).length ≤ 1) : Passage turns := by
  cases turns with
  | nil => exact .none
  | cons turn rest =>
      cases turn with
      | left first =>
          simp only [List.filterMap_cons, Turn.left?, Turn.right?, List.length_cons] at lefts rights
          cases rest with
          | nil => exact .left first
          | cons next rest =>
              cases next <;>
                simp only [List.filterMap_cons, Turn.left?, Turn.right?, List.length_cons] at lefts rights
              · omega
              · rw [@eq_nil_of_none _ _ rest (by omega) (by omega)]
                exact .leftFirst _ _
              · omega
      | right second =>
          simp only [List.filterMap_cons, Turn.left?, Turn.right?, List.length_cons] at lefts rights
          cases rest with
          | nil => exact .right second
          | cons next rest =>
              cases next <;>
                simp only [List.filterMap_cons, Turn.left?, Turn.right?, List.length_cons] at lefts rights
              · rw [@eq_nil_of_none _ _ rest (by omega) (by omega)]
                exact .rightFirst _ _
              · omega
              · omega
      | both first second =>
          simp only [List.filterMap_cons, Turn.left?, Turn.right?, List.length_cons] at lefts rights
          rw [@eq_nil_of_none _ _ rest (by omega) (by omega)]
          exact .both first second

/-- What is passed of one key. -/
theorem filterMap_left?_filter [DecidableEq κ] (value : κ) :
    (turns.filter fun turn => turn.key leftKey rightKey = value).filterMap Turn.left? =
      (turns.filterMap Turn.left?).filter fun first => leftKey first = value := by
  rw [List.filterMap_filter, List.filter_filterMap]
  apply List.filterMap_congr
  intro turn _
  cases turn with
  | left first => rfl
  | right second =>
      rw [Turn.left?, Option.filter_none, ite_self]
  | both first second => rfl

theorem filterMap_right?_filter [DecidableEq κ] (value : κ)
    (agree : ∀ first second, .both first second ∈ turns -> leftKey first = rightKey second) :
    (turns.filter fun turn => turn.key leftKey rightKey = value).filterMap Turn.right? =
      (turns.filterMap Turn.right?).filter fun second => rightKey second = value := by
  rw [List.filterMap_filter, List.filter_filterMap]
  apply List.filterMap_congr
  intro turn member
  cases turn with
  | left first =>
      rw [Turn.right?, Option.filter_none, ite_self]
  | right second => rfl
  | both first second =>
      rw [Turn.key, agree first second member]
      rfl

theorem length_filter_le_one [DecidableEq κ] {view : α -> κ} {items : List α} (distinct : (items.map view).Nodup)
    (value : κ) : (items.filter fun item => view item = value).length ≤ 1 := by
  induction items with
  | nil => exact Nat.zero_le 1
  | cons item rest ih =>
      rw [List.map_cons, List.nodup_cons] at distinct
      by_cases here : view item = value
      · have others : (rest.filter fun item => view item = value) = [] := by
          rw [List.filter_eq_nil_iff]
          intro other member same
          have sameKey := here.trans (of_decide_eq_true same).symm
          exact distinct.1 (sameKey ▸ List.mem_map_of_mem member)
        rw [List.filter_cons_of_pos (by simpa using here), others]
        exact Nat.le_refl 1
      · rw [List.filter_cons_of_neg (by simpa using here)]
        exact ih distinct.2

/-- Of the elements of one key there is at most one in either list, and they are passed in one
of the six ways. -/
theorem passage_filter [DecidableEq κ] {compare : α -> β -> Int} {as : List α} {bs : List β}
    (lefts : (as.map leftKey).Nodup) (rights : (bs.map rightKey).Nodup)
    (agree : ∀ first ∈ as, ∀ second ∈ bs, compare first second = 0 -> leftKey first = rightKey second)
    (value : κ) :
    Passage ((walk compare as bs).filter fun turn => turn.key leftKey rightKey = value) := by
  apply passage_of_short
  · rw [filterMap_left?_filter, filterMap_left?]
    exact length_filter_le_one lefts value
  · rw [filterMap_right?_filter, filterMap_right?]
    · exact length_filter_le_one rights value
    · intro first second member
      exact agree first (mem_left member rfl) second (mem_right member rfl) (compare_of_both member)

end Keys

end Lockstep
