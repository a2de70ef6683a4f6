import Mathlib.Data.List.Chain
import Mathlib.Data.List.Sort

/-!
# A merge sort that leaves increasing lists alone

The sort cuts a list behind its first half, sorts both parts and merges them,
unless the list is strictly increasing already.  Where two elements are equal
under the comparison, the merge prefers the second part: the sort is not
stable.
-/

namespace CJson
namespace MergeSort

variable {α : Type*} (less : α -> α -> Bool)

/-- Every element is less than the one behind it. -/
def increasing : List α -> Bool
  | first :: second :: rest => less first second && increasing (second :: rest)
  | _ => true

/-- The sort with a budget for the depth of the recursion. -/
def sortWithin : Nat -> List α -> List α
  | 0, list => list
  | fuel + 1, list =>
      if list.length ≤ 1 ∨ increasing less list = true then list
      else
        let half := (list.length + 1) / 2
        List.merge (sortWithin fuel (list.take half)) (sortWithin fuel (list.drop half)) less

/-- Sort a list. -/
def sort (list : List α) : List α := sortWithin less list.length list

variable {less}

theorem sortWithin_perm (fuel : Nat) (list : List α) : (sortWithin less fuel list).Perm list := by
  induction fuel generalizing list with
  | zero => exact List.Perm.refl list
  | succ fuel ih =>
      rw [sortWithin]
      split
      · exact List.Perm.refl list
      · have halves := (ih (list.take ((list.length + 1) / 2))).append
          (ih (list.drop ((list.length + 1) / 2)))
        rw [List.take_append_drop] at halves
        exact List.Perm.trans (List.merge_perm_append less) halves

theorem sort_perm (list : List α) : (sort less list).Perm list := sortWithin_perm _ list

theorem sort_of_increasing {list : List α} (sorted : increasing less list = true) :
    sort less list = list := by
  rw [sort]
  cases list with
  | nil => rfl
  | cons first rest => rw [List.length_cons, sortWithin, if_pos (Or.inr sorted)]

theorem sort_of_length_le {list : List α} (short : list.length ≤ 1) : sort less list = list := by
  apply sort_of_increasing
  match list, short with
  | [], _ => rfl
  | [only], _ => rfl

theorem sortWithin_congr {fuel more : Nat} {list : List α} (enough : list.length ≤ fuel) (also : list.length ≤ more) :
    sortWithin less fuel list = sortWithin less more list := by
  induction fuel generalizing more list with
  | zero =>
      rw [List.length_eq_zero_iff.mp (Nat.le_zero.mp enough)]
      cases more <;> simp [sortWithin]
  | succ fuel ih =>
      cases more with
      | zero =>
          rw [List.length_eq_zero_iff.mp (Nat.le_zero.mp also)]
          simp [sortWithin]
      | succ more =>
          rw [sortWithin, sortWithin]
          by_cases done : list.length ≤ 1 ∨ increasing less list = true
          · rw [if_pos done, if_pos done]
          · have long := Nat.lt_of_not_le (mt Or.inl done)
            rw [if_neg done, if_neg done]
            dsimp only
            rw [@ih more (list.take ((list.length + 1) / 2)) (by rw [List.length_take]; omega)
                (by rw [List.length_take]; omega),
              @ih more (list.drop ((list.length + 1) / 2)) (by rw [List.length_drop]; omega)
                (by rw [List.length_drop]; omega)]

/-- Neither half of a list of two elements or more is empty. -/
theorem exists_halves {list : List α} (long : 1 < list.length) :
    ∃ front last first back, list.take ((list.length + 1) / 2) = front ++ [last] ∧
      list.drop ((list.length + 1) / 2) = first :: back := by
  have takeSome : list.take ((list.length + 1) / 2) ≠ [] := by
    apply List.ne_nil_of_length_pos
    rw [List.length_take]
    omega
  have dropSome : list.drop ((list.length + 1) / 2) ≠ [] := by
    apply List.ne_nil_of_length_pos
    rw [List.length_drop]
    omega
  rcases List.exists_cons_of_ne_nil dropSome with ⟨first, back, dropped⟩
  exact ⟨_, _, first, back, (List.dropLast_append_getLast takeSome).symm, dropped⟩

/-- A merged list begins with what one of the lists begins with. -/
theorem merge_head? {first second : List α} : (List.merge first second less).head? = first.head? ∨
    (List.merge first second less).head? = second.head? := by
  rcases first with _ | ⟨left, first⟩
  · exact Or.inr (by rw [List.nil_merge])
  rcases second with _ | ⟨right, second⟩
  · exact Or.inl (by rw [List.merge_right])
  by_cases smaller : less left right = true
  · exact Or.inl (by rw [List.cons_merge_cons_pos _ _ _ smaller]; rfl)
  · exact Or.inr (by rw [List.cons_merge_cons_neg _ _ _ smaller]; rfl)

/-- A list that is not sorted is cut behind its first half. -/
theorem sort_eq_merge {list : List α} (long : 1 < list.length) (unsorted : ¬ increasing less list = true) :
    sort less list = List.merge (sort less (list.take ((list.length + 1) / 2)))
      (sort less (list.drop ((list.length + 1) / 2))) less := by
  have enough : sort less list = sortWithin less (list.length + 1) list :=
    sortWithin_congr le_rfl (Nat.le_succ _)
  rw [enough, sortWithin, if_neg (not_or.mpr ⟨Nat.not_le_of_lt long, unsorted⟩)]
  dsimp only
  rw [sort, sort]
  congr 1
  · exact sortWithin_congr (List.length_take_le' _ _) le_rfl
  · exact sortWithin_congr (by rw [List.length_drop]; omega) le_rfl

/-- Two elements that are not in order change places. -/
theorem sort_pair {first second : α} (unsorted : less first second = false) :
    sort less [first, second] = [second, first] := by
  have notIncreasing : ¬ increasing less [first, second] = true := by simp [increasing, unsorted]
  have half : ([first, second].length + 1) / 2 = 1 := by simp
  rw [sort_eq_merge (by simp) notIncreasing, half]
  show List.merge (sort less [first]) (sort less [second]) less = _
  rw [sort_of_length_le (le_refl 1), sort_of_length_le (le_refl 1), List.cons_merge_cons, if_neg]
  · rw [List.merge_right]
  · rw [unsorted]
    exact Bool.false_ne_true

section Ordered

variable {β : Type*} [LinearOrder β] {key : α -> β}

/-- On the elements of a list, the comparison is the order of their keys.  Elements of
one key are not less than each other. -/
def Orders (less : α -> α -> Bool) (key : α -> β) (list : List α) : Prop :=
  ∀ left ∈ list, ∀ right ∈ list, less left right = true ↔ key left < key right

theorem Orders.subset {list shorter : List α} (orders : Orders less key list) (subset : shorter ⊆ list) :
    Orders less key shorter :=
  fun left leftMember right rightMember => orders left (subset leftMember) right (subset rightMember)

theorem increasing_iff {list : List α} (orders : Orders less key list) :
    increasing less list = true ↔ list.Pairwise (fun left right => key left < key right) := by
  induction list with
  | nil => exact iff_of_true rfl List.Pairwise.nil
  | cons first rest ih =>
      cases rest with
      | nil => exact iff_of_true rfl (List.pairwise_singleton _ _)
      | cons second rest =>
          rw [increasing, Bool.and_eq_true, ih (orders.subset (List.subset_cons_self _ _)),
            orders first List.mem_cons_self second (List.mem_cons_of_mem _ List.mem_cons_self),
            @List.pairwise_cons _ _ first]
          constructor
          · rintro ⟨head, tail⟩
            refine ⟨fun other member => ?_, tail⟩
            rcases List.mem_cons.mp member with same | later
            · exact same ▸ head
            · exact lt_trans head ((List.pairwise_cons.mp tail).1 other later)
          · exact fun both => ⟨both.1 second List.mem_cons_self, both.2⟩

/-- Merging keeps the order, whichever side it prefers; equal keys may therefore come
out in any order. -/
theorem merge_sorted {first second : List α} (orders : Orders less key (first ++ second))
    (firstSorted : first.Pairwise (fun left right => key left ≤ key right))
    (secondSorted : second.Pairwise (fun left right => key left ≤ key right)) :
    (List.merge first second less).Pairwise (fun left right => key left ≤ key right) := by
  induction first generalizing second with
  | nil => rwa [List.nil_merge]
  | cons left first ihFirst =>
      induction second with
      | nil => rwa [List.merge_right]
      | cons right second ihSecond =>
          rw [List.pairwise_cons] at firstSorted secondSorted
          have compared := orders left List.mem_cons_self right
            (List.mem_append_right _ List.mem_cons_self)
          by_cases smaller : less left right = true
          · have below := le_of_lt (compared.mp smaller)
            rw [List.cons_merge_cons_pos _ _ _ smaller, List.pairwise_cons]
            refine ⟨fun other member => ?_, ihFirst (orders.subset (List.subset_cons_self _ _))
              firstSorted.2 (List.pairwise_cons.mpr secondSorted)⟩
            rcases List.mem_merge.mp member with inFirst | inSecond
            · exact firstSorted.1 other inFirst
            · rcases List.mem_cons.mp inSecond with same | later
              · exact same ▸ below
              · exact le_trans below (secondSorted.1 other later)
          · have below := not_lt.mp (mt compared.mpr smaller)
            have fewer : Orders less key (left :: first ++ second) :=
              orders.subset (((List.sublist_cons_self right second).append_left (left :: first)).subset)
            rw [List.cons_merge_cons_neg _ _ _ smaller, List.pairwise_cons]
            refine ⟨fun other member => ?_, ihSecond fewer secondSorted.2⟩
            rcases List.mem_merge.mp member with inFirst | inSecond
            · rcases List.mem_cons.mp inFirst with same | later
              · exact same ▸ below
              · exact le_trans below (firstSorted.1 other later)
            · exact secondSorted.1 other inSecond

theorem sort_sorted {list : List α} (orders : Orders less key list) :
    (sort less list).Pairwise (fun left right => key left ≤ key right) := by
  have within : ∀ fuel (list : List α), Orders less key list -> list.length ≤ fuel ->
      (sortWithin less fuel list).Pairwise (fun left right => key left ≤ key right) := by
    intro fuel
    induction fuel with
    | zero =>
        intro list _ short
        rw [List.length_eq_zero_iff.mp (Nat.le_zero.mp short)]
        exact List.Pairwise.nil
    | succ fuel ih =>
        intro list orders short
        rw [sortWithin]
        split
        · rename_i done
          rcases done with single | sorted
          · match list, single with
            | [], _ => exact List.Pairwise.nil
            | [only], _ => exact List.pairwise_singleton _ _
          · exact ((increasing_iff orders).mp sorted).imp le_of_lt
        · rename_i long
          have parts := (@sortWithin_perm _ less fuel (list.take ((list.length + 1) / 2))).append
            (@sortWithin_perm _ less fuel (list.drop ((list.length + 1) / 2)))
          rw [List.take_append_drop] at parts
          apply merge_sorted (orders.subset parts.subset)
          · apply ih _ (orders.subset (List.take_subset _ _))
            rw [List.length_take]
            omega
          · apply ih _ (orders.subset (List.drop_subset _ _))
            rw [List.length_drop]
            omega
  exact within _ list orders le_rfl

end Ordered

/-! ## The elements at the ends -/

section Ends

/-- The first element is less than all others, and the last one is greater. -/
def Outermost (less : α -> α -> Bool) (list : List α) : Prop :=
  (∀ first, list.head? = some first -> ∀ other ∈ list.tail, less first other = true) ∧
    ∀ last, list.getLast? = some last -> ∀ other ∈ list.dropLast, less other last = true

/-- What the first list begins with comes first only if it is less than the other list's
first element. -/
theorem first_of_merge {first second : List α} {head : α} (apart : head ∉ second)
    (isFirst : (List.merge first second less).head? = some head) :
    first.head? = some head ∧ ∀ other, second.head? = some other -> less head other = true := by
  rcases second with _ | ⟨right, second⟩
  · rw [List.merge_right] at isFirst
    exact ⟨isFirst, fun _ impossible => nomatch impossible⟩
  rcases first with _ | ⟨left, first⟩
  · rw [List.nil_merge] at isFirst
    exact absurd (List.mem_of_mem_head? isFirst) apart
  by_cases smaller : less left right = true
  · rw [List.cons_merge_cons_pos _ _ _ smaller] at isFirst
    cases isFirst
    refine ⟨rfl, ?_⟩
    rintro _ ⟨⟩
    exact smaller
  · rw [List.cons_merge_cons_neg _ _ _ smaller] at isFirst
    cases isFirst
    exact absurd List.mem_cons_self apart

/-- What the second list ends with comes last only if all of the first list has been
taken before. -/
theorem last_of_merge {first second : List α} {last : α} (apart : last ∉ first)
    (isLast : (List.merge first second less).getLast? = some last) :
    second.getLast? = some last ∧ ∀ other ∈ first, ∃ later ∈ second, less other later = true := by
  have shorter : ∀ {head : α} {first second : List α}, first ≠ [] ∨ second ≠ [] ->
      (head :: List.merge first second less).getLast? = some last ->
        (List.merge first second less).getLast? = some last := by
    intro head first second some isLast
    have lengths := List.length_merge less first second
    rcases merged : List.merge first second less with _ | ⟨next, rest⟩
    · rw [merged, List.length_nil] at lengths
      rcases some with some | some
      · exact absurd (List.length_eq_zero_iff.mp (by omega)) some
      · exact absurd (List.length_eq_zero_iff.mp (by omega)) some
    · rw [merged, List.getLast?_cons_cons] at isLast
      exact isLast
  induction first generalizing second with
  | nil =>
      rw [List.nil_merge] at isLast
      exact ⟨isLast, fun _ impossible => nomatch impossible⟩
  | cons left first ihFirst =>
      induction second with
      | nil =>
          rw [List.merge_right] at isLast
          exact absurd (List.mem_of_getLast? isLast) apart
      | cons right second ihSecond =>
          by_cases smaller : less left right = true
          · rw [List.cons_merge_cons_pos _ _ _ smaller] at isLast
            rcases ihFirst (mt (List.mem_cons_of_mem _) apart) (shorter (Or.inr (List.cons_ne_nil _ _)) isLast) with
              ⟨same, below⟩
            refine ⟨same, fun other member => ?_⟩
            rcases List.mem_cons.mp member with rfl | inside
            · exact ⟨right, List.mem_cons_self, smaller⟩
            · exact below other inside
          · rw [List.cons_merge_cons_neg _ _ _ smaller] at isLast
            rcases ihSecond (shorter (Or.inl (List.cons_ne_nil _ _)) isLast) with ⟨same, below⟩
            constructor
            · rcases second with _ | ⟨next, second⟩
              · exact nomatch same
              · rw [List.getLast?_cons_cons]
                exact same
            · intro other member
              rcases below other member with ⟨later, inside, less⟩
              exact ⟨later, List.mem_cons_of_mem _ inside, less⟩

/-- The elements behind one another in an increasing list. -/
theorem pairwise_of_increasing {list : List α}
    (transitive : ∀ a b c, less a b = true -> less b c = true -> less a c = true)
    (sorted : increasing less list = true) : list.Pairwise (fun first second => less first second = true) := by
  induction list with
  | nil => exact List.Pairwise.nil
  | cons first rest ih =>
      cases rest with
      | nil => exact List.pairwise_singleton _ _
      | cons second rest =>
          rw [increasing, Bool.and_eq_true] at sorted
          have tail := ih sorted.2
          apply List.pairwise_cons.mpr
          refine ⟨fun other member => ?_, tail⟩
          rcases List.mem_cons.mp member with rfl | later
          · exact sorted.1
          · exact transitive _ _ _ sorted.1 ((List.pairwise_cons.mp tail).1 other later)

theorem outermost_of_pairwise {list : List α}
    (sorted : list.Pairwise (fun first second => less first second = true)) :
    Outermost less list := by
  constructor
  · intro first isFirst other member
    rcases List.head?_eq_some_iff.mp isFirst with ⟨rest, rfl⟩
    exact (List.pairwise_cons.mp sorted).1 other member
  · intro last isLast other member
    rcases List.getLast?_eq_some_iff.mp isLast with ⟨front, rfl⟩
    rw [List.dropLast_concat] at member
    exact (List.pairwise_append.mp sorted).2.2 other member last List.mem_cons_self

/-- The halves of a list that is not sorted. -/
theorem sort_halves {list : List α} (unsorted : ¬ increasing less list = true) :
    ∃ first second, list = first ++ second ∧ first ≠ [] ∧ second ≠ [] ∧
      sort less list = List.merge (sort less first) (sort less second) less := by
  have long : 1 < list.length := by
    rcases list with _ | ⟨first, _ | ⟨second, rest⟩⟩
    · exact absurd rfl unsorted
    · exact absurd rfl unsorted
    · exact Nat.succ_lt_succ (Nat.succ_pos _)
  rcases exists_halves long with ⟨front, last, first, back, taken, dropped⟩
  have whole := List.take_append_drop ((list.length + 1) / 2) list
  have merged := sort_eq_merge long unsorted
  rw [taken, dropped] at whole merged
  exact ⟨_, _, whole.symm, List.concat_ne_nil _ _, List.cons_ne_nil _ _, merged⟩

/-- If sorting leaves the last element where it was, it is greater than all others.
In every merge that it takes part in it comes last, so it has been compared with the
last one of the other half. -/
theorem greatest_of_sort {list : List α}
    (transitive : ∀ a b c, less a b = true -> less b c = true -> less a c = true) (distinct : list.Nodup)
    {last : α} (isLast : list.getLast? = some last) (stays : (sort less list).getLast? = some last) :
    ∀ other ∈ list.dropLast, less other last = true := by
  induction length : list.length using Nat.strong_induction_on generalizing list with
  | _ size ih =>
      by_cases sorted : increasing less list = true
      · exact (outermost_of_pairwise (pairwise_of_increasing transitive sorted)).2 last isLast
      rcases sort_halves sorted with ⟨first, second, rfl, firstSome, secondSome, merged⟩
      rw [List.getLast?_append_of_ne_nil _ secondSome] at isLast
      rw [merged] at stays
      rw [List.length_append] at length
      rcases List.nodup_append.mp distinct with ⟨_, secondDistinct, apart⟩
      have notFirst : last ∉ sort less first := fun member =>
        apart last ((sort_perm first).mem_iff.mp member) last (List.mem_of_getLast? isLast) rfl
      rcases last_of_merge notFirst stays with ⟨secondLast, below⟩
      have shorter : second.length < size := by
        have some := List.length_pos_of_ne_nil firstSome
        omega
      have inSecond := ih second.length shorter secondDistinct isLast secondLast rfl
      intro other member
      rw [List.dropLast_append_of_ne_nil secondSome] at member
      rcases List.mem_append.mp member with inFirst | later
      · rcases below other ((sort_perm first).mem_iff.mpr inFirst) with ⟨next, nextMember, smaller⟩
        rcases List.getLast?_eq_some_iff.mp isLast with ⟨front, rfl⟩
        rw [List.dropLast_concat] at inSecond
        rcases List.mem_append.mp ((sort_perm _).mem_iff.mp nextMember) with inFront | same
        · exact transitive _ _ _ smaller (inSecond next inFront)
        · exact List.mem_singleton.mp same ▸ smaller
      · exact inSecond other later

variable {β : Type*} [LinearOrder β] {key : α -> β} {named : α -> Prop}

/-- If sorting leaves the first element where it was, it is less than all others. -/
theorem least_of_sort {list : List α} (orders : Orders less key list) (distinct : list.Nodup) {first : α}
    (isFirst : list.head? = some first) (stays : (sort less list).head? = some first) :
    ∀ other ∈ list.tail, less first other = true := by
  induction length : list.length using Nat.strong_induction_on generalizing list with
  | _ size ih =>
      by_cases sorted : increasing less list = true
      · rcases List.head?_eq_some_iff.mp isFirst with ⟨rest, rfl⟩
        intro other member
        have smaller := (List.pairwise_cons.mp ((increasing_iff orders).mp sorted)).1 other member
        exact (orders first List.mem_cons_self other (List.mem_cons_of_mem _ member)).mpr smaller
      rcases sort_halves sorted with ⟨front, second, rfl, frontSome, secondSome, merged⟩
      rw [List.head?_append_of_ne_nil _ frontSome] at isFirst
      rw [merged] at stays
      rw [List.length_append] at length
      rcases List.nodup_append.mp distinct with ⟨frontDistinct, _, apart⟩
      have notSecond : first ∉ sort less second := fun member =>
        apart first (List.mem_of_mem_head? isFirst) first ((sort_perm second).mem_iff.mp member) rfl
      rcases first_of_merge notSecond stays with ⟨frontFirst, below⟩
      have shorter : front.length < size := by
        have some := List.length_pos_of_ne_nil secondSome
        omega
      have inFront := ih front.length shorter (orders.subset (List.subset_append_left _ _)) frontDistinct isFirst
        frontFirst rfl
      intro other member
      rw [List.tail_append_of_ne_nil frontSome] at member
      rcases List.mem_append.mp member with here | later
      · exact inFront other here
      · have secondSorted := sort_sorted (orders.subset (List.subset_append_right front second))
        have perm := @sort_perm _ less second
        have firstMember := List.mem_append_left second (List.mem_of_mem_head? isFirst)
        have otherMember := List.mem_append_right front later
        rcases begun : sort less second with _ | ⟨head, rest⟩
        · rw [begun] at perm
          exact absurd perm.nil_eq.symm secondSome
        rw [begun] at secondSorted perm below
        have headMember : head ∈ front ++ second :=
          List.mem_append_right front (perm.mem_iff.mp List.mem_cons_self)
        have smaller := (orders first firstMember head headMember).mp (below head rfl)
        apply (orders first firstMember other otherMember).mpr
        rcases List.mem_cons.mp (perm.mem_iff.mpr later) with rfl | behind
        · exact smaller
        · exact lt_of_lt_of_le smaller ((List.pairwise_cons.mp secondSorted).1 other behind)

/-- The comparison is the order of the keys, but without a name an element is not less
than any, nor any less than it.  Such a comparison is not an order as soon as a name
is missing. -/
def ComparesNamed (less : α -> α -> Bool) (named : α -> Prop) (key : α -> β) : Prop :=
  ∀ first second, less first second = true ↔ named first ∧ named second ∧ key first < key second

theorem ComparesNamed.transitive (compares : ComparesNamed less named key) (a b c : α)
    (first : less a b = true) (second : less b c = true) : less a c = true := by
  rcases (compares a b).mp first with ⟨aNamed, _, aLess⟩
  rcases (compares b c).mp second with ⟨_, cNamed, bLess⟩
  exact (compares a c).mpr ⟨aNamed, cNamed, lt_trans aLess bLess⟩

theorem ComparesNamed.orders (compares : ComparesNamed less named key) {list : List α}
    (all : ∀ member ∈ list, named member) : Orders less key list :=
  fun left leftMember right rightMember =>
    ⟨fun smaller => ((compares left right).mp smaller).2.2,
      fun smaller => (compares left right).mpr ⟨all left leftMember, all right rightMember, smaller⟩⟩

theorem sort_head_of_least {list : List α} (orders : Orders less key list) {first : α}
    (isFirst : list.head? = some first) (least : ∀ other ∈ list.tail, less first other = true) :
    (sort less list).head? = some first := by
  rcases List.head?_eq_some_iff.mp isFirst with ⟨rest, rfl⟩
  have perm := @sort_perm _ less (first :: rest)
  have sorted := sort_sorted orders
  rcases begun : sort less (first :: rest) with _ | ⟨head, others⟩
  · rw [begun] at perm
    exact absurd perm.nil_eq.symm (List.cons_ne_nil _ _)
  rw [begun] at perm sorted
  have headMember : head ∈ first :: rest := perm.mem_iff.mp List.mem_cons_self
  rcases List.mem_cons.mp headMember with rfl | later
  · rfl
  rcases List.mem_cons.mp (perm.mem_iff.mpr List.mem_cons_self) with same | behind
  · rw [same]
    rfl
  · have smaller := (orders first List.mem_cons_self head headMember).mp (least head later)
    exact absurd smaller (not_lt_of_ge ((List.pairwise_cons.mp sorted).1 first behind))

theorem sort_getLast_of_greatest {list : List α} (orders : Orders less key list) {last : α}
    (isLast : list.getLast? = some last) (greatest : ∀ other ∈ list.dropLast, less other last = true) :
    (sort less list).getLast? = some last := by
  rcases List.getLast?_eq_some_iff.mp isLast with ⟨front, rfl⟩
  rw [List.dropLast_concat] at greatest
  have perm := @sort_perm _ less (front ++ [last])
  have sorted := sort_sorted orders
  rcases List.eq_nil_or_concat (sort less (front ++ [last])) with none | ⟨others, final, ended⟩
  · rw [none] at perm
    exact absurd perm.nil_eq.symm (List.concat_ne_nil _ _)
  rw [List.concat_eq_append] at ended
  rw [ended] at perm sorted ⊢
  rw [List.getLast?_concat]
  have finalMember : final ∈ front ++ [last] := perm.mem_iff.mp List.mem_concat_self
  rcases List.mem_append.mp finalMember with earlier | same
  · rcases List.mem_append.mp (perm.mem_iff.mpr (List.mem_concat_self : last ∈ front ++ [last])) with behind | same
    · have smaller := (orders final finalMember last List.mem_concat_self).mp (greatest final earlier)
      have below := (List.pairwise_append.mp sorted).2.2 last behind final List.mem_cons_self
      exact absurd smaller (not_lt_of_ge below)
    · rw [List.mem_singleton.mp same]
  · rw [List.mem_singleton.mp same]

/-- Sorting leaves the first and the last element where they were exactly if these are
the extremes of the list already. -/
theorem sort_ends_iff (compares : ComparesNamed less named key) {list : List α} (distinct : list.Nodup) :
    ((sort less list).head? = list.head? ∧ (sort less list).getLast? = list.getLast?) ↔ Outermost less list := by
  rcases list with _ | ⟨first, _ | ⟨second, rest⟩⟩
  · rw [sort_of_increasing rfl]
    exact iff_of_true ⟨rfl, rfl⟩ (outermost_of_pairwise List.Pairwise.nil)
  · rw [sort_of_increasing rfl]
    exact iff_of_true ⟨rfl, rfl⟩ (outermost_of_pairwise (List.pairwise_singleton _ _))
  rcases List.eq_nil_or_concat (second :: rest) with none | ⟨front, last, split⟩
  · exact absurd none (List.cons_ne_nil _ _)
  rw [List.concat_eq_append] at split
  have isLast : (first :: second :: rest).getLast? = some last := by
    rw [split, ← List.cons_append, List.getLast?_concat]
  have shorter : (first :: second :: rest).dropLast = first :: front := by
    rw [split, ← List.cons_append, List.dropLast_concat]
  constructor
  · rintro ⟨heads, lasts⟩
    have greatest := greatest_of_sort compares.transitive distinct isLast (lasts.trans isLast)
    rw [shorter] at greatest
    have all : ∀ member ∈ first :: second :: rest, named member := by
      intro member inside
      rw [split, ← List.cons_append] at inside
      rcases List.mem_append.mp inside with earlier | same
      · exact ((compares member last).mp (greatest member earlier)).1
      · exact List.mem_singleton.mp same ▸ ((compares first last).mp (greatest first List.mem_cons_self)).2.1
    constructor
    · rintro _ ⟨⟩
      exact least_of_sort (compares.orders all) distinct rfl heads
    · intro other isOther
      rw [isLast] at isOther
      cases isOther
      rw [shorter]
      exact greatest
  · rintro ⟨least, greatest⟩
    have below := least first rfl
    have all : ∀ member ∈ first :: second :: rest, named member := by
      intro member inside
      rcases List.mem_cons.mp inside with rfl | later
      · exact ((compares member second).mp (below second List.mem_cons_self)).1
      · exact ((compares first member).mp (below member later)).2.1
    exact ⟨sort_head_of_least (compares.orders all) rfl below,
      (sort_getLast_of_greatest (compares.orders all) isLast (greatest last isLast)).trans isLast.symm⟩

end Ends

/-! ## Sorting a sorted list -/

section Again

theorem increasing_iff_isChain {list : List α} :
    increasing less list = true ↔ list.IsChain (fun first second => less first second = true) := by
  induction list with
  | nil => exact iff_of_true rfl List.IsChain.nil
  | cons first rest ih =>
      cases rest with
      | nil => exact iff_of_true rfl (List.IsChain.singleton first)
      | cons second rest => rw [increasing, Bool.and_eq_true, ih, List.isChain_cons_cons]

/-- A merge that puts the whole first list in front has found all of it smaller than
what the second list begins with. -/
theorem merge_eq_append {first second left right : List α} (apart : List.Disjoint left right)
    (firstPerm : first.Perm left) (secondPerm : second.Perm right)
    (merged : List.merge first second less = left ++ right) :
    first = left ∧ second = right ∧ ∀ head, second.head? = some head -> ∀ other ∈ first, less other head = true := by
  induction first generalizing left with
  | nil =>
      rw [List.nil_merge, firstPerm.nil_eq.symm] at merged
      exact ⟨firstPerm.nil_eq, merged, fun _ _ _ inside => nomatch inside⟩
  | cons front first ih =>
      rcases left with _ | ⟨begin_, left⟩
      · exact absurd firstPerm.symm.nil_eq.symm (List.cons_ne_nil _ _)
      rcases second with _ | ⟨head, second⟩
      · rw [List.merge_right, ← secondPerm.nil_eq, List.append_nil] at merged
        exact ⟨merged, secondPerm.nil_eq, fun _ impossible => nomatch impossible⟩
      by_cases smaller : less front head = true
      · rw [List.cons_merge_cons_pos _ _ _ smaller, List.cons_append, List.cons.injEq] at merged
        obtain ⟨rfl, merged⟩ := merged
        have rest := ih (List.disjoint_of_disjoint_cons_left apart) (List.Perm.cons_inv firstPerm) merged
        refine ⟨congrArg _ rest.1, rest.2.1, ?_⟩
        intro first isHead other inside
        rcases List.mem_cons.mp inside with rfl | later
        · cases isHead
          exact smaller
        · exact rest.2.2 first isHead other later
      · -- the second list's head would come first, and it is not in the first list
        rw [List.cons_merge_cons_neg _ _ _ smaller, List.cons_append, List.cons.injEq] at merged
        obtain ⟨rfl, _⟩ := merged
        exact (apart List.mem_cons_self (secondPerm.mem_iff.mp List.mem_cons_self)).elim

/-- The sort leaves a list alone only if it is increasing. -/
theorem sort_eq_self_iff {list : List α} (distinct : list.Nodup) :
    sort less list = list ↔ increasing less list = true := by
  constructor
  · induction length : list.length using Nat.strong_induction_on generalizing list with
    | _ size ih =>
      intro fixed
      by_contra unsorted
      have long : 1 < list.length := by
        rcases list with _ | ⟨first, _ | ⟨second, rest⟩⟩
        · exact absurd rfl unsorted
        · exact absurd rfl unsorted
        · exact Nat.succ_lt_succ (Nat.succ_pos _)
      have whole := List.take_append_drop ((list.length + 1) / 2) list
      have merged := (sort_eq_merge long unsorted).symm.trans (fixed.trans whole.symm)
      have parts := List.nodup_append.mp (whole.symm ▸ distinct)
      have apart : List.Disjoint (list.take ((list.length + 1) / 2)) (list.drop ((list.length + 1) / 2)) :=
        fun node inFirst inSecond => parts.2.2 node inFirst node inSecond rfl
      obtain ⟨frontFixed, backFixed, below⟩ := merge_eq_append apart (sort_perm _) (sort_perm _) merged
      have frontShorter : (list.take ((list.length + 1) / 2)).length < size := by
        rw [List.length_take]
        omega
      have backShorter : (list.drop ((list.length + 1) / 2)).length < size := by
        rw [List.length_drop]
        omega
      have front := increasing_iff_isChain.mp (ih _ frontShorter parts.1 rfl frontFixed)
      have back := increasing_iff_isChain.mp (ih _ backShorter parts.2.1 rfl backFixed)
      rw [frontFixed, backFixed] at below
      apply unsorted
      rw [increasing_iff_isChain, ← whole]
      apply List.isChain_append.mpr
      refine ⟨front, back, ?_⟩
      intro last isLast head isHead
      exact below head isHead last (List.mem_of_getLast? isLast)
  · exact sort_of_increasing

variable {β : Type*} [LinearOrder β] {key : α -> β} {named : α -> Prop}

/-- Sorting twice is sorting once exactly if there is nothing to compare, or all elements
have names and no two of them the same key. -/
theorem sort_sort_iff (compares : ComparesNamed less named key) {list : List α} (distinct : list.Nodup) :
    sort less (sort less list) = sort less list ↔
      list.length ≤ 1 ∨ (∀ member ∈ list, named member) ∧
        list.Pairwise (fun first second => key first ≠ key second) := by
  have perm := @sort_perm _ less list
  have unordered : ∀ {one two : List α}, one.Perm two ->
      (one.Pairwise (fun first second => key first ≠ key second) ↔
        two.Pairwise (fun first second => key first ≠ key second)) :=
    fun same => same.pairwise_iff fun different => different.symm
  rw [sort_eq_self_iff (perm.nodup_iff.mpr distinct)]
  constructor
  · intro increasing
    by_cases short : list.length ≤ 1
    · exact Or.inl short
    right
    have chain := increasing_iff_isChain.mp increasing
    have trans : IsTrans α fun first second => less first second = true := ⟨compares.transitive⟩
    have pairs := chain.pairwise
    constructor
    · intro member inside
      rcases result : sort less list with _ | ⟨first, _ | ⟨second, rest⟩⟩
      · rw [result] at perm
        exact absurd perm.symm.length_eq (by rw [List.length_nil]; omega)
      · rw [result] at perm
        exact absurd perm.symm.length_eq (by rw [List.length_singleton]; omega)
      rw [result] at perm pairs
      have below := (List.pairwise_cons.mp pairs).1
      rcases List.mem_cons.mp (perm.mem_iff.mpr inside) with rfl | later
      · exact ((compares _ second).mp (below second List.mem_cons_self)).1
      · exact ((compares first member).mp (below member later)).2.1
    · rw [← unordered perm]
      exact pairs.imp fun smaller => ne_of_lt ((compares _ _).mp smaller).2.2
  · rintro (short | ⟨all, different⟩)
    · have single : (sort less list).length ≤ 1 := perm.length_eq.trans_le short
      match sort less list, single with
      | [], _ => rfl
      | [only], _ => rfl
    · have orders := compares.orders all
      rw [increasing_iff (orders.subset perm.subset)]
      have sorted := sort_sorted orders
      exact List.Pairwise.imp₂ (fun _ _ below apart => lt_of_le_of_ne below apart) sorted
        ((unordered perm).mpr different)

end Again

end MergeSort
end CJson
