import CJson.Library.Json
import Mathlib.Data.List.Perm.Basic

/-!
# Lists that match up to their order

Two lists match if the one, put in another order, is related to the other element by
element; lists that are ordered keep their order.  An element and its partner can be taken
out or exchanged together, and a search that cannot hit two different keys finds partners.
-/

namespace Matching

universe u v w

variable {α : Type u} {β : Type v} {γ : Type w} {related : α -> β -> Prop} {ordered : Prop}

/-- The elements of one list have changed places, unless they are ordered, and are
then related to those of the other one.  Permuting comes first, so that the relation
is element by element. -/
def Matched (related : α -> β -> Prop) (ordered : Prop) (items : List α) (others : List β) : Prop :=
  ∃ sorted, items.Perm sorted ∧ (ordered -> sorted = items) ∧ List.Forall₂ related sorted others

/-! ## Results that may be missing -/

theorem rel_bind {δ : Type u} {ε : Type v} {after : δ -> ε -> Prop} {first : Option α} {second : Option β}
    {next : α -> Option δ} {otherNext : β -> Option ε} (here : Option.Rel related first second)
    (goes : ∀ item other, related item other -> Option.Rel after (next item) (otherNext other)) :
    Option.Rel after (first.bind next) (second.bind otherNext) := by
  cases here with
  | none => exact .none
  | some pair => exact goes _ _ pair

/-- Both are missing, or both are there. -/
theorem rel_cases {first : Option α} {second : Option β} (here : Option.Rel related first second) :
    first = none ∧ second = none ∨ ∃ item other, first = some item ∧ second = some other ∧ related item other := by
  cases here with
  | none => exact Or.inl ⟨rfl, rfl⟩
  | some pair => exact Or.inr ⟨_, _, rfl, rfl, pair⟩

theorem rel_imp {other : α -> β -> Prop} {first : Option α} {second : Option β}
    (here : Option.Rel related first second) (weaker : ∀ item last, related item last -> other item last) :
    Option.Rel other first second := by
  cases here with
  | none => exact .none
  | some pair => exact .some (weaker _ _ pair)

/-! ## Single elements -/

theorem forall₂_set {items : List α} {others : List β} (pairs : List.Forall₂ related items others)
    {item : α} {other : β} (here : related item other) (index : Nat) :
    List.Forall₂ related (items.set index item) (others.set index other) := by
  induction pairs generalizing index with
  | nil => exact .nil
  | cons head tail ih =>
      cases index with
      | zero => exact .cons here tail
      | succ index => exact .cons head (ih index)

theorem forall₂_eraseIdx {items : List α} {others : List β} (pairs : List.Forall₂ related items others)
    (index : Nat) : List.Forall₂ related (items.eraseIdx index) (others.eraseIdx index) := by
  induction pairs generalizing index with
  | nil => exact .nil
  | cons head tail ih =>
      cases index with
      | zero => exact tail
      | succ index => exact .cons head (ih index)

theorem forall₂_insertIdx {items : List α} {others : List β} (pairs : List.Forall₂ related items others)
    {item : α} {other : β} (here : related item other) (index : Nat) :
    List.Forall₂ related (items.insertIdx index item) (others.insertIdx index other) := by
  induction pairs generalizing index with
  | nil =>
      cases index with
      | zero => exact .cons here .nil
      | succ index => exact .nil
  | cons head tail ih =>
      cases index with
      | zero => exact .cons here (.cons head tail)
      | succ index => exact .cons head (ih index)

/-- Two elements of matching lists that belong together.  Without them the lists still
match, and with related elements in their places they do so again. -/
structure Partners (related : α -> β -> Prop) (ordered : Prop) (items : List α) (others : List β)
    (index place : Nat) (item : α) (other : β) : Prop where
  here : items[index]? = some item
  there : others[place]? = some other
  pair : related item other
  rest : Matched related ordered (items.eraseIdx index) (others.eraseIdx place)
  set : ∀ new change, related new change -> Matched related ordered (items.set index new) (others.set place change)
  same : ordered -> place = index

namespace Matched

variable {items : List α} {others : List β}

theorem of_forall₂ (pairs : List.Forall₂ related items others) : Matched related ordered items others :=
  ⟨items, List.Perm.refl items, fun _ => rfl, pairs⟩

theorem pairs (matched : Matched related ordered items others) (isOrdered : ordered) :
    List.Forall₂ related items others := by
  rcases matched with ⟨sorted, _, unchanged, pairs⟩
  rwa [unchanged isOrdered] at pairs

theorem length_eq (matched : Matched related ordered items others) : others.length = items.length := by
  rcases matched with ⟨sorted, perm, _, pairs⟩
  rw [perm.length_eq, pairs.length_eq]

/-- Both lists get one more element. -/
theorem concat (matched : Matched related ordered items others) {item : α} {other : β}
    (here : related item other) : Matched related ordered (items ++ [item]) (others ++ [other]) := by
  rcases matched with ⟨sorted, perm, unchanged, pairs⟩
  refine ⟨sorted ++ [item], perm.append_right [item], fun isOrdered => ?_, ?_⟩
  · rw [unchanged isOrdered]
  · exact List.rel_append pairs (.cons here .nil)

/-- Every other element comes from one of the first list. -/
theorem original (matched : Matched related ordered items others) {other : β} (inside : other ∈ others) :
    ∃ item ∈ items, related item other := by
  rcases matched with ⟨sorted, perm, _, pairs⟩
  rcases List.mem_iff_getElem?.mp inside with ⟨place, there⟩
  rcases forall₂_iff_getElem?.mp pairs with ⟨length, pairs⟩
  have bound := (List.getElem?_eq_some_iff.mp there).1
  rw [← length] at bound
  have here := List.getElem?_eq_getElem bound
  exact ⟨_, perm.mem_iff.mpr (List.mem_of_getElem? here), pairs place _ other here there⟩

/-- What is made of the elements one by one matches if it does for every pair.  The
order of the two lists plays the same part before and after. -/
theorem transfer {δ : Type u} {ε : Type v} {made : α -> δ -> Prop} {otherMade : β -> ε -> Prop}
    {onMade : δ -> ε -> Prop} {results : List δ} {otherResults : List ε}
    (matched : Matched related ordered items others) (all : List.Forall₂ made items results)
    (otherAll : List.Forall₂ otherMade others otherResults)
    (keeps : ∀ item ∈ items, ∀ other result otherResult, related item other -> made item result ->
      otherMade other otherResult -> onMade result otherResult) : Matched onMade ordered results otherResults := by
  have together : ∀ {between : List α} {images : List δ}, (∀ item ∈ between, item ∈ items) ->
      List.Forall₂ made between images -> List.Forall₂ related between others ->
      List.Forall₂ onMade images otherResults := by
    intro between images inside images_ pairs
    rcases forall₂_iff_getElem?.mp images_ with ⟨imagesLength, images_⟩
    rcases forall₂_iff_getElem?.mp pairs with ⟨pairsLength, pairs⟩
    rcases forall₂_iff_getElem?.mp otherAll with ⟨otherLength, otherAll⟩
    refine forall₂_iff_getElem?.mpr ⟨by omega, fun index result otherResult here there => ?_⟩
    have bound := (List.getElem?_eq_some_iff.mp here).1
    have first : between[index]? = some (between.get ⟨index, by omega⟩) := List.getElem?_eq_getElem _
    have second : others[index]? = some (others.get ⟨index, by omega⟩) := List.getElem?_eq_getElem _
    exact keeps _ (inside _ (List.mem_of_getElem? first)) _ _ _ (pairs index _ _ first second)
      (images_ index _ _ first here) (otherAll index _ _ second there)
  rcases matched with ⟨sorted, perm, unchanged, pairs⟩
  by_cases isOrdered : ordered
  · rw [unchanged isOrdered] at pairs
    exact of_forall₂ (together (fun _ => id) all pairs)
  · rcases List.perm_comp_forall₂ perm.symm all with ⟨images, imagesMade, back⟩
    refine ⟨images, back.symm, fun impossible => absurd impossible isOrdered, ?_⟩
    exact together (fun _ member => perm.mem_iff.mpr member) imagesMade pairs

/-- In the changed order an element stands beside its partner. -/
private theorem partners_of_sorted {sorted : List α} (perm : items.Perm sorted)
    (unchanged : ordered -> sorted = items) (pairs : List.Forall₂ related sorted others) {index place : Nat}
    {item : α} (here : items[index]? = some item) (between : sorted[place]? = some item)
    (same : ordered -> place = index) : ∃ other, Partners related ordered items others index place item other := by
  rcases List.getElem?_eq_some_iff.mp here with ⟨bound, isItem⟩
  rcases List.getElem?_eq_some_iff.mp between with ⟨within, isSame⟩
  have otherBound := within
  rw [pairs.length_eq] at otherBound
  have there := List.getElem?_eq_getElem otherBound
  have rests : (items.eraseIdx index).Perm (sorted.eraseIdx place) := by
    have front := List.getElem_cons_eraseIdx_perm bound
    have back := List.getElem_cons_eraseIdx_perm within
    rw [isItem] at front
    rw [isSame] at back
    exact (List.perm_cons item).mp ((front.trans perm).trans back.symm)
  refine ⟨_, here, there, (forall₂_iff_getElem?.mp pairs).2 place item _ between there, ?_, ?_, same⟩
  · refine ⟨sorted.eraseIdx place, rests, fun isOrdered => ?_, forall₂_eraseIdx pairs place⟩
    rw [unchanged isOrdered, same isOrdered]
  · intro new change related
    refine ⟨sorted.set place new, ?_, fun isOrdered => ?_, forall₂_set pairs related place⟩
    · exact ((List.set_perm_cons_eraseIdx bound new).trans (rests.cons new)).trans
        (List.set_perm_cons_eraseIdx within new).symm
    · rw [unchanged isOrdered, same isOrdered]

theorem partners (matched : Matched related ordered items others) {index : Nat} {item : α}
    (here : items[index]? = some item) :
    ∃ place other, Partners related ordered items others index place item other := by
  rcases matched with ⟨sorted, perm, unchanged, pairs⟩
  by_cases isOrdered : ordered
  · have between : sorted[index]? = some item := by rwa [unchanged isOrdered]
    exact ⟨index, partners_of_sorted perm unchanged pairs here between fun _ => rfl⟩
  · rcases List.mem_iff_getElem?.mp (perm.mem_iff.mp (List.mem_of_getElem? here)) with ⟨place, between⟩
    exact ⟨place, partners_of_sorted perm unchanged pairs here between fun impossible => absurd impossible isOrdered⟩

/-- Searches that hit elements of one key only come to partners: as there is one
element of that key in the list, it does not matter where the search begins. -/
theorem find (matched : Matched related ordered items others) {key : α -> γ} (keys : (items.map key).Nodup)
    {hit : α -> Bool} {otherHit : β -> Bool} (agree : ∀ item other, related item other -> otherHit other = hit item)
    (one : ∀ first ∈ items, ∀ second ∈ items, hit first = true -> hit second = true -> key first = key second) :
    Option.Rel (fun index place => ∃ item other, Partners related ordered items others index place item other ∧
      hit item = true) (items.findIdx? hit) (others.findIdx? otherHit) := by
  cases found : items.findIdx? hit with
  | none =>
      rw [List.findIdx?_eq_none_iff] at found
      have missing : others.findIdx? otherHit = none := by
        rw [List.findIdx?_eq_none_iff]
        intro other inside
        rcases matched.original inside with ⟨item, member, pair⟩
        rw [agree item other pair]
        exact found item member
      rw [missing]
      exact .none
  | some index =>
      rcases List.findIdx?_eq_some_iff_getElem.mp found with ⟨bound, hits, _⟩
      rcases matched.partners (List.getElem?_eq_getElem bound) with ⟨place, other, partners⟩
      rcases List.getElem?_eq_some_iff.mp partners.there with ⟨within, isOther⟩
      have reached : others.findIdx? otherHit = some place := by
        rw [List.findIdx?_eq_some_iff_getElem]
        refine ⟨within, ?_, ?_⟩
        · rw [isOther, agree _ _ partners.pair]
          exact hits
        · intro earlier before again
          have earlierBound : earlier < (others.eraseIdx place).length := by
            rw [List.length_eraseIdx_of_lt within]
            omega
          have inRest : (others.eraseIdx place)[earlier]? = some others[earlier] := by
            rw [List.getElem?_eraseIdx_of_lt before]
            exact List.getElem?_eq_getElem _
          -- it comes from an element that is not the one found, and has another key
          rcases partners.rest.original (List.mem_of_getElem? inRest) with ⟨item, member, pair⟩
          rw [agree item _ pair] at again
          have apart : ((items[index] :: items.eraseIdx index).map key).Nodup :=
            ((List.getElem_cons_eraseIdx_perm bound).map key).nodup_iff.mpr keys
          rw [List.map_cons, List.nodup_cons] at apart
          apply apart.1
          rw [one _ (List.getElem_mem bound) item (List.mem_of_mem_eraseIdx member) hits again]
          exact List.mem_map_of_mem member
      rw [reached]
      exact .some ⟨_, other, partners, hits⟩

end Matched
end Matching
