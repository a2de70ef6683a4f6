import CJson.Mending

/-!
# What `create_patches` writes down

For a pair of trees `create_patches` either writes one replacement down, or patches
that change the first tree into the second wherever it stands in a document.  It
sorts both trees on the way, which leaves their values alone.
-/

namespace CJson

open CString Item

/-- What the patches for two trees at a place in a document do.  Either they are one
replacement by a copy of the second tree, or they turn any node with the first tree's
value, at this place, into one with the second's. -/
structure Diffs (caseSensitive : Bool) (steps : List (Json.Step Bytes)) (from_ to_ : Item)
    (patches : List Item) : Prop where
  replaced : Replaced from_ to_ -> ∃ path, Spells path steps ∧
    patches = [patchItem replaceText path (cjsonDuplicate to_)]
  walked : ¬ Replaced from_ to_ -> ∀ node : Item, node.WellFormed caseSensitive ->
    node.json caseSensitive = from_.json caseSensitive -> Mendable caseSensitive node to_ ->
    ∃ next, Rewrites caseSensitive steps patches node next ∧
      next.json caseSensitive = to_.json caseSensitive

/-- What making the patches for a pair of trees gives: patches that do what they
should, and trees that are sorted where they have been compared and are otherwise the
same. -/
structure Creates (caseSensitive : Bool) (steps : List (Json.Step Bytes)) (from_ to_ : Item)
    (diff : Diffed Item) : Prop where
  diffs : Diffs caseSensitive steps from_ to_ diff.patches
  tidyFrom : Tidied caseSensitive from_ diff.from_
  tidyTo : Tidied caseSensitive to_ diff.to_

section Lists

variable {caseSensitive : Bool} {steps : List (Json.Step Bytes)} {path : Bytes}
  {create : Bytes -> Item -> Item -> Option (Diffed Item)}

/-! ## Objects -/

/-- What the loop along two sorted lists of members gives.  The patches turn each
member that either list names into what the second list has under this name, and keep
away from every other member of the node; this is what lets the induction go on with
what is left of the lists. -/
structure CreatesMembers (caseSensitive : Bool) (steps : List (Json.Step Bytes)) (from_ to_ : List Item)
    (diff : Diffed (List Item)) : Prop where
  tidyFrom : List.Forall₂ (Tidied caseSensitive) from_ diff.from_
  tidyTo : List.Forall₂ (Tidied caseSensitive) to_ diff.to_
  walked : ∀ node : Item, node.WellFormed caseSensitive -> node.isObject = true ->
    Pending caseSensitive node from_ to_ ->
    ∃ next, Rewrites caseSensitive steps diff.patches node next ∧ ∀ name,
      (name ∈ from_.map (nameIn caseSensitive) ∨ name ∈ to_.map (nameIn caseSensitive) ->
        jsonMembers caseSensitive next.child name = jsonMembers caseSensitive to_ name) ∧
      (¬ (name ∈ from_.map (nameIn caseSensitive) ∨ name ∈ to_.map (nameIn caseSensitive)) ->
        jsonMembers caseSensitive next.child name = jsonMembers caseSensitive node.child name)

/-- One turn of the loop, in front of the others.  The turn takes care of one name:
its patches bring the node to the value of that name, and the lists of members that
are still to come lose it.  What the others say about the rest then carries over. -/
theorem CreatesMembers.cons {from_ to_ fromRest toRest : List Item} {patches : List Item}
    {diff rest : Diffed (List Item)} {name : Bytes}
    (created : CreatesMembers caseSensitive steps fromRest toRest rest)
    (tidyFrom : List.Forall₂ (Tidied caseSensitive) from_ diff.from_)
    (tidyTo : List.Forall₂ (Tidied caseSensitive) to_ diff.to_)
    (patchesEq : diff.patches = patches ++ rest.patches)
    (fromWithout : Without caseSensitive name fromRest from_)
    (toWithout : Without caseSensitive name toRest to_)
    (toRestEq : ∀ other, other ≠ name ->
      jsonMembers caseSensitive toRest other = jsonMembers caseSensitive to_ other)
    (listed : name ∈ from_.map (nameIn caseSensitive) ∨ name ∈ to_.map (nameIn caseSensitive))
    (turn : ∀ node : Item, node.WellFormed caseSensitive -> node.isObject = true ->
      Pending caseSensitive node from_ to_ ->
      ∃ next, Mended caseSensitive steps patches node next name (jsonMembers caseSensitive to_ name) ∧
        Pending caseSensitive next fromRest toRest) :
    CreatesMembers caseSensitive steps from_ to_ diff := by
  refine ⟨tidyFrom, tidyTo, fun node wellFormed isObject pending => ?_⟩
  rcases turn node wellFormed isObject pending with ⟨middle, mended, pendingRest⟩
  have middleObject : middle.isObject = true := by
    rw [Item.isObject, Item.base, mended.rewrites.fields]
    exact isObject
  rcases created.walked middle mended.rewrites.wellFormed middleObject pendingRest with
    ⟨next, rewrites, members⟩
  have listedRest : ∀ other, other ≠ name ->
      ((other ∈ fromRest.map (nameIn caseSensitive) ∨ other ∈ toRest.map (nameIn caseSensitive)) ↔
        (other ∈ from_.map (nameIn caseSensitive) ∨ other ∈ to_.map (nameIn caseSensitive))) := by
    intro other apart
    rw [fromWithout.mem_names, toWithout.mem_names]
    simp only [ne_eq, apart, not_false_eq_true, and_true]
  refine ⟨next, ?_, fun other => ?_⟩
  · rw [patchesEq]
    exact mended.rewrites.append rewrites
  · by_cases same : other = name
    · subst same
      refine ⟨fun _ => ?_, fun unlisted => absurd listed unlisted⟩
      rw [(members other).2, mended.value, Function.update_self]
      rw [fromWithout.mem_names, toWithout.mem_names]
      rintro (⟨_, apart⟩ | ⟨_, apart⟩) <;> exact apart rfl
    · refine ⟨fun isListed => ?_, fun unlisted => ?_⟩
      · rw [(members other).1 ((listedRest other same).mpr isListed), toRestEq other same]
      · rw [(members other).2 (mt (listedRest other same).mp unlisted), mended.value,
          Function.update_of_ne same]

theorem InOrder.without {head : Item} {rest : List Item} (inOrder : InOrder caseSensitive (head :: rest)) :
    Without caseSensitive (head.nameIn caseSensitive) rest (head :: rest) := by
  intro item
  constructor
  · intro member
    refine ⟨List.mem_cons_of_mem _ member, fun same => ?_⟩
    have less := (List.pairwise_cons.mp inOrder).1 item member
    rw [sortKey_eq_iff.mpr same] at less
    exact lt_irrefl _ less
  · rintro ⟨member, apart⟩
    rcases List.mem_cons.mp member with rfl | later
    · exact absurd rfl apart
    · exact later

theorem without_self {name : Bytes} {children : List Item}
    (absent : name ∉ children.map (nameIn caseSensitive)) :
    Without caseSensitive name children children :=
  fun _ => ⟨fun member => ⟨member, fun same => absent (same ▸ List.mem_map_of_mem member)⟩, And.left⟩

theorem replaced_congr {node other new : Item}
    (same : node.json caseSensitive = other.json caseSensitive) : Replaced node new ↔ Replaced other new := by
  have scalar := sameScalar_of_json same
  rw [Replaced, Replaced, ← scalar.base]
  by_cases isNumber : node.base = .number
  · rw [(scalar.number isNumber).1, (scalar.number isNumber).2, isNumber]
    simp
  · by_cases isString : node.base = .string
    · rw [scalar.string isString, isString]
      simp
    · simp [isNumber, isString]

theorem Mendable.shallow {node new : Item} (mendable : Mendable caseSensitive node new)
    (replaced : Replaced node new) : new.height ≤ cjsonCircularLimit := by
  have container : ∀ kind, node.base = kind -> new.base = kind -> kind ≠ .number -> kind ≠ .string ->
      ¬ Replaced node new := by
    rintro kind isKind newKind notNumber notString (apart | ⟨number, _⟩ | ⟨string, _⟩)
    · exact apart (isKind.trans newKind.symm)
    · exact notNumber (isKind.symm.trans number)
    · exact notString (isKind.symm.trans string)
  cases mendable with
  | replace _ shallow => exact shallow
  | keep same _ _ => exact absurd replaced same
  | array array newArray _ _ =>
      exact absurd replaced (container .array (beq_iff_eq.mp array) (beq_iff_eq.mp newArray) (by decide)
        (by decide))
  | object isObject newObject _ _ _ =>
      exact absurd replaced (container .object (beq_iff_eq.mp isObject) (beq_iff_eq.mp newObject) (by decide)
        (by decide))

section Turns

variable {old new : Item} {fromRest toRest from_ to_ : List Item} {node : Item}

/-- A turn for two members of one name.  The patches for their values, prefixed by the
name, change the member where it stands; nothing is removed and nothing is added. -/
theorem turn_pair {patches : List Item}
    (fromInOrder : InOrder caseSensitive (old :: fromRest)) (toInOrder : InOrder caseSensitive (new :: toRest))
    (same : old.nameIn caseSensitive = new.nameIn caseSensitive)
    (diffs : Diffs caseSensitive (steps ++ [.member old.key]) old new patches)
    (distinct : new.DistinctKeysIn caseSensitive)
    (wellFormed : node.WellFormed caseSensitive) (isObject : node.isObject = true)
    (pending : Pending caseSensitive node (old :: fromRest) (new :: toRest)) :
    ∃ next, Mended caseSensitive steps patches node next (old.nameIn caseSensitive)
        (some (new.json caseSensitive)) ∧ Pending caseSensitive next fromRest toRest := by
  have fromWithout := fromInOrder.without
  have toWithout := toInOrder.without
  rw [← same] at toWithout
  rcases exists_child_of_jsonMembers (pending.present old List.mem_cons_self) with
    ⟨member, inside, named, sameValue⟩
  have mendable := pending.mendable new List.mem_cons_self (same ▸ List.mem_cons_self) member inside
    (named.trans same)
  by_cases replaced : Replaced old new
  · have gone : Gone caseSensitive (new :: toRest) old := by
      intro other otherMember otherName
      rcases List.mem_cons.mp otherMember with rfl | later
      · exact replaced
      · exact absurd otherName ((toWithout other).mp later).2
    rcases diffs.replaced replaced with ⟨pointer, spells, rfl⟩
    rcases pending.replace wellFormed isObject spells distinct List.mem_cons_self gone fromInOrder.least
      (mendable.shallow ((replaced_congr sameValue).mpr replaced)) with ⟨next, mended, clear⟩
    exact ⟨next, mended, pending.step mended fromWithout toWithout fun _ _ _ _ => clear⟩
  · rcases diffs.walked replaced member (wellFormed.child inside) sameValue mendable with
      ⟨changed, rewrites, changedValue⟩
    rcases List.mem_iff_getElem?.mp inside with ⟨position, there⟩
    rcases mended_below wellFormed isObject (zero_not_mem_key old) there (named.trans (foldName_key old).symm)
      rewrites with ⟨next, mended⟩
    rw [foldName_key, changedValue] at mended
    refine ⟨next, mended, pending.step mended fromWithout toWithout fun other otherMember otherName gone => ?_⟩
    rcases List.mem_cons.mp otherMember with rfl | later
    · exact absurd (gone new List.mem_cons_self same.symm) replaced
    · exact absurd otherName ((fromWithout other).mp later).2

/-- A turn for a member that the second object does not have.  One `remove` takes it
out, and the lookup without regard to case finds it because no name that differs from
it only in case comes before it. -/
theorem turn_remove (fromInOrder : InOrder caseSensitive (old :: fromRest))
    (absent : old.nameIn caseSensitive ∉ to_.map (nameIn caseSensitive))
    (spells : Spells path (steps ++ [.member old.key]))
    (wellFormed : node.WellFormed caseSensitive) (isObject : node.isObject = true)
    (pending : Pending caseSensitive node (old :: fromRest) to_) :
    ∃ next, Mended caseSensitive steps [patchItem removeText path none] node next (old.nameIn caseSensitive)
        none ∧ Pending caseSensitive next fromRest to_ := by
  have gone : Gone caseSensitive to_ old :=
    fun other member same => absurd (same ▸ List.mem_map_of_mem member) absent
  rcases pending.remove wellFormed isObject spells List.mem_cons_self gone fromInOrder.least with
    ⟨next, mended, clear⟩
  exact ⟨next, mended, pending.step mended fromInOrder.without (without_self absent) fun _ _ _ _ => clear⟩

/-- A turn for a member that the first object does not have.  One `add` puts a copy of
it behind the others. -/
theorem turn_add (toInOrder : InOrder caseSensitive (new :: toRest))
    (absent : new.nameIn caseSensitive ∉ from_.map (nameIn caseSensitive))
    (spells : Spells path (steps ++ [.member new.key])) (distinct : new.DistinctKeysIn caseSensitive)
    (wellFormed : node.WellFormed caseSensitive) (isObject : node.isObject = true)
    (pending : Pending caseSensitive node from_ (new :: toRest)) :
    ∃ next, Mended caseSensitive steps [patchItem addText path (cjsonDuplicate new)] node next
        (new.nameIn caseSensitive) (some (new.json caseSensitive)) ∧
      Pending caseSensitive next from_ toRest := by
  rcases pending.add wellFormed isObject spells distinct List.mem_cons_self absent with ⟨next, mended⟩
  refine ⟨next, mended, pending.step mended (without_self absent) toInOrder.without
    fun other member named _ => ?_⟩
  exact absurd (named ▸ List.mem_map_of_mem member) absent

end Turns

/-- The path of a member below the path of its object. -/
theorem spells_member {string : Bytes} {item : Item} (spells : Spells path steps)
    (stored : item.string = some string) :
    Spells (encodedPath path string) (steps ++ [.member item.key]) := by
  have named : item.key = text string := by rw [key, stored, Option.getD_some]
  rw [named]
  exact spells_encodedPath spells string

section Turns

variable {old new : Item} {fromRest toRest from_ to_ : List Item} {rest : Diffed (List Item)}
  {string : Bytes}

theorem CreatesMembers.pair {diff : Diffed Item} (created : CreatesMembers caseSensitive steps fromRest toRest rest)
    (fromInOrder : InOrder caseSensitive (old :: fromRest)) (toInOrder : InOrder caseSensitive (new :: toRest))
    (same : old.nameIn caseSensitive = new.nameIn caseSensitive)
    (creates : Creates caseSensitive (steps ++ [.member old.key]) old new diff)
    (distinct : new.DistinctKeysIn caseSensitive) :
    CreatesMembers caseSensitive steps (old :: fromRest) (new :: toRest)
      ⟨diff.patches ++ rest.patches, diff.from_ :: rest.from_, diff.to_ :: rest.to_⟩ := by
  have here : jsonMembers caseSensitive (new :: toRest) (old.nameIn caseSensitive) =
      some (new.json caseSensitive) := by
    rw [jsonMembers, if_pos same.symm]
  have toWithout := toInOrder.without
  rw [← same] at toWithout
  refine created.cons (.cons creates.tidyFrom created.tidyFrom) (.cons creates.tidyTo created.tidyTo) rfl
    fromInOrder.without toWithout (fun other apart => jsonMembers_cons_of_ne (same ▸ apart))
    (Or.inl List.mem_cons_self) fun node wellFormed isObject pending => ?_
  rw [here]
  exact turn_pair fromInOrder toInOrder same creates.diffs distinct wellFormed isObject pending

theorem CreatesMembers.remove (created : CreatesMembers caseSensitive steps fromRest to_ rest)
    (fromInOrder : InOrder caseSensitive (old :: fromRest))
    (absent : old.nameIn caseSensitive ∉ to_.map (nameIn caseSensitive))
    (spells : Spells path (steps ++ [.member old.key])) (distinct : old.DistinctKeysIn caseSensitive) :
    CreatesMembers caseSensitive steps (old :: fromRest) to_
      ⟨patchItem removeText path none :: rest.patches, old :: rest.from_, rest.to_⟩ := by
  have first : patchItem removeText path none :: rest.patches =
      [patchItem removeText path none] ++ rest.patches := rfl
  refine created.cons (.cons (.refl distinct) created.tidyFrom) created.tidyTo first fromInOrder.without
    (without_self absent) (fun _ _ => rfl) (Or.inl List.mem_cons_self)
    fun node wellFormed isObject pending => ?_
  rw [jsonMembers_eq_none_iff.mpr absent]
  exact turn_remove fromInOrder absent spells wellFormed isObject pending

theorem CreatesMembers.add (created : CreatesMembers caseSensitive steps from_ toRest rest)
    (toInOrder : InOrder caseSensitive (new :: toRest))
    (absent : new.nameIn caseSensitive ∉ from_.map (nameIn caseSensitive))
    (spells : Spells path (steps ++ [.member new.key])) (distinct : new.DistinctKeysIn caseSensitive) :
    CreatesMembers caseSensitive steps from_ (new :: toRest)
      ⟨patchItem addText path (cjsonDuplicate new) :: rest.patches, rest.from_, new :: rest.to_⟩ := by
  have here : jsonMembers caseSensitive (new :: toRest) (new.nameIn caseSensitive) =
      some (new.json caseSensitive) := by
    rw [jsonMembers, if_pos rfl]
  have first : patchItem addText path (cjsonDuplicate new) :: rest.patches =
      [patchItem addText path (cjsonDuplicate new)] ++ rest.patches := rfl
  refine created.cons created.tidyFrom (.cons (.refl distinct) created.tidyTo) first (without_self absent)
    toInOrder.without (fun other apart => jsonMembers_cons_of_ne apart) (Or.inr List.mem_cons_self)
    fun node wellFormed isObject pending => ?_
  rw [here]
  exact turn_add toInOrder absent spells distinct wellFormed isObject pending

end Turns

/-- What the loop needs to know of a list of members: each has a name, the names are
in order, and below each there are no two members of one name.  Sorting a well-formed
object gives such a list. -/
structure Listed (caseSensitive : Bool) (children : List Item) : Prop where
  named : ∀ child ∈ children, child.string.isSome
  inOrder : InOrder caseSensitive children
  distinct : ∀ child ∈ children, child.DistinctKeysIn caseSensitive

theorem Listed.tail {head : Item} {rest : List Item} (listed : Listed caseSensitive (head :: rest)) :
    Listed caseSensitive rest :=
  ⟨fun child member => listed.named child (List.mem_cons_of_mem _ member),
    (List.pairwise_cons.mp listed.inOrder).2,
    fun child member => listed.distinct child (List.mem_cons_of_mem _ member)⟩

/-- The loop along two sorted lists of members, by induction on the members that are
left.  Each turn is one of three kinds, as the smaller name belongs to the first list,
to the second or to both. -/
theorem createMemberPatches_creates {fuel : Nat} {from_ to_ : List Item} (spells : Spells path steps)
    (enough : from_.length + to_.length < fuel)
    (fromListed : Listed caseSensitive from_) (toListed : Listed caseSensitive to_)
    (pairs : ∀ old ∈ from_, ∀ new ∈ to_, ∀ path steps, Spells path steps ->
      ∃ diff, create path old new = some diff ∧ Creates caseSensitive steps old new diff) :
    ∃ diff, createMemberPatches create path caseSensitive fuel from_ to_ = some diff ∧
      CreatesMembers caseSensitive steps from_ to_ diff := by
  induction fuel generalizing from_ to_ with
  | zero => omega
  | succ fuel ih =>
      cases from_ with
      | nil =>
          cases to_ with
          | nil =>
              refine ⟨⟨[], [], []⟩, rfl, .nil, .nil, fun node wellFormed _ _ => ⟨node, .nil wellFormed, ?_⟩⟩
              intro name
              simp
          | cons new toRest =>
              rcases Option.isSome_iff_exists.mp (toListed.named new List.mem_cons_self) with ⟨string, stored⟩
              rw [List.length_cons] at enough
              rcases ih (by omega) fromListed toListed.tail (fun _ impossible => nomatch impossible) with
                ⟨rest, ran, created⟩
              refine ⟨_, ?_, created.add toListed.inOrder List.not_mem_nil (spells_member spells stored)
                (toListed.distinct new List.mem_cons_self)⟩
              simp only [createMemberPatches, stored, composePatch_suffix, ran, Option.bind_eq_bind,
                Option.bind_some]
      | cons old fromRest =>
          rcases Option.isSome_iff_exists.mp (fromListed.named old List.mem_cons_self) with ⟨string, stored⟩
          have oldDistinct := fromListed.distinct old List.mem_cons_self
          rw [List.length_cons] at enough
          cases to_ with
          | nil =>
              rcases ih (by omega) fromListed.tail toListed (fun _ _ _ impossible => nomatch impossible) with
                ⟨rest, ran, created⟩
              refine ⟨_, ?_, created.remove fromListed.inOrder List.not_mem_nil (spells_member spells stored)
                oldDistinct⟩
              simp only [createMemberPatches, stored, composePatch_suffix, ran, Option.bind_eq_bind,
                Option.bind_some, Option.bind_none]
          | cons new toRest =>
              rcases Option.isSome_iff_exists.mp (toListed.named new List.mem_cons_self) with
                ⟨newString, newStored⟩
              have newDistinct := toListed.distinct new List.mem_cons_self
              have compared := @compareStrings_spec caseSensitive old new
                (fromListed.named old List.mem_cons_self) (toListed.named new List.mem_cons_self)
              rw [List.length_cons] at enough
              rw [createMemberPatches]
              by_cases equal : compareStrings old.string new.string caseSensitive = 0
              · rcases pairs old List.mem_cons_self new List.mem_cons_self _ _ (spells_member spells stored) with
                  ⟨diff, made, creates⟩
                rcases ih (by omega) fromListed.tail toListed.tail (fun other member another inside =>
                  pairs other (List.mem_cons_of_mem _ member) another (List.mem_cons_of_mem _ inside)) with
                  ⟨rest, ran, created⟩
                refine ⟨_, ?_, created.pair fromListed.inOrder toListed.inOrder (compared.2.mp equal) creates
                  newDistinct⟩
                simp only [if_pos equal]
                simp only [stored, made, ran, Option.bind_eq_bind, Option.bind_some]
              · by_cases smaller : compareStrings old.string new.string caseSensitive < 0
                · rcases ih (by rw [List.length_cons]; omega) fromListed.tail toListed
                    (fun other member => pairs other (List.mem_cons_of_mem _ member)) with
                    ⟨rest, ran, created⟩
                  refine ⟨_, ?_, created.remove fromListed.inOrder
                    (toListed.inOrder.not_mem (compared.1.mp smaller)) (spells_member spells stored) oldDistinct⟩
                  simp only [if_neg equal, if_pos smaller]
                  simp only [stored, composePatch_suffix, ran, Option.bind_eq_bind, Option.bind_some,
                    Option.bind_none]
                · have larger : sortKey caseSensitive new < sortKey caseSensitive old := by
                    apply lt_of_le_of_ne (not_lt.mp (mt compared.1.mpr smaller))
                    exact fun same => equal (compared.2.mpr (sortKey_eq_iff.mp same).symm)
                  rcases ih (by rw [List.length_cons]; omega) fromListed toListed.tail
                    (fun other member another inside =>
                      pairs other member another (List.mem_cons_of_mem _ inside)) with ⟨rest, ran, created⟩
                  refine ⟨_, ?_, created.add toListed.inOrder (fromListed.inOrder.not_mem larger)
                    (spells_member spells newStored) newDistinct⟩
                  simp only [if_neg equal, if_neg smaller]
                  simp only [newStored, composePatch_suffix, ran, Option.bind_eq_bind, Option.bind_some]

/-! ## Arrays -/

theorem mapM_some {α β : Type} (make : α -> β) (items : List α) :
    (items.mapM fun item => some (make item)) = some (items.map make) := by
  induction items with
  | nil => rfl
  | cons item items ih =>
      rw [List.mapM_cons, ih]
      rfl

section Elements

variable {node : Item} {front back : List Item} {index : Nat}

/-- The path of an index behind the path of its array. -/
theorem spells_allocIndexString {path : Bytes} (spells : Spells path steps) (index : Nat) :
    Spells (encodedPath path (allocIndexString index)) (steps ++ [.element index]) := by
  have written := spells_encodedPath spells (allocIndexString index)
  have free : (0 : UInt8) ∉ decimalDigits index :=
    fun inside => absurd (isDigit_of_mem_decimalDigits inside) (by decide)
  rw [allocIndexString, text_append_zero free, Spells, pointerText_concat, stepToken,
    escape_decimalDigits] at written
  rw [Spells, pointerText_concat]
  exact written

/-- Removals at one index take the rest of an array away, one element at a time. -/
theorem rewrites_removals {path : Bytes} (wellFormed : node.WellFormed caseSensitive)
    (array : node.isArray = true) (children : node.child = front ++ back) (small : front.length < usizeBound)
    (spells : Spells path (steps ++ [.element front.length])) :
    ∃ next, Rewrites caseSensitive steps (back.map fun _ => patchItem removeText path none) node next ∧
      next.child = front := by
  induction back generalizing node with
  | nil => exact ⟨node, .nil wellFormed, by rw [children, List.append_nil]⟩
  | cons element back ih =>
      have there : node.child[front.length]? = some element := by
        rw [children, List.getElem?_append_right le_rfl, Nat.sub_self]
        rfl
      rcases cjsonDetachItemViaPointer_eq_some there with ⟨rest, detached⟩
      rcases cjsonDetachItemViaPointer_wellFormed wellFormed detached with ⟨_, tidy, restChildren, fields⟩
      have shorter : rest.child = front ++ back := by
        rw [restChildren, children, List.eraseIdx_append_of_length_le le_rfl, Nat.sub_self,
          List.eraseIdx_cons_zero]
      rcases ih tidy (isArray_congr array fields) shorter with ⟨next, rewrites, nextChildren⟩
      refine ⟨next, ?_, nextChildren⟩
      exact (rewrites_removeElement wellFormed array small spells detached).append rewrites

/-- Additions behind the last element, one after the other, by the path that ends in
`-`.  The elements that were there stay, and the new ones have the values of the
second array. -/
theorem rewrites_additions {path : Bytes} {to_ : List Item} (wellFormed : node.WellFormed caseSensitive)
    (array : node.isArray = true) (spells : Spells path (steps ++ [.member [45]]))
    (shallow : ∀ new ∈ to_, new.height ≤ cjsonCircularLimit)
    (distinct : ∀ new ∈ to_, new.DistinctKeysIn caseSensitive) :
    ∃ next added, Rewrites caseSensitive steps
        (to_.map fun new => patchItem addText path (cjsonDuplicate new)) node next ∧
      next.child = node.child ++ added ∧
      added.map (json caseSensitive) = to_.map (json caseSensitive) := by
  induction to_ generalizing node with
  | nil => exact ⟨node, [], .nil wellFormed, (List.append_nil _).symm, rfl⟩
  | cons new to_ ih =>
      rcases value_copied (shallow new List.mem_cons_self) (distinct new List.mem_cons_self) with
        ⟨given, copy, made, copied, copyWellFormed, value⟩
      rcases addItemToArray_array wellFormed array copyWellFormed with ⟨result, put, tidy, fields, children⟩
      rcases ih tidy (isArray_congr array fields)
        (fun other member => shallow other (List.mem_cons_of_mem _ member))
        (fun other member => distinct other (List.mem_cons_of_mem _ member)) with
        ⟨next, added, rewrites, nextChildren, values⟩
      refine ⟨next, copy :: added, ?_, ?_, ?_⟩
      · rw [List.map_cons, made]
        exact (rewrites_appendElement array spells copied put tidy fields).append rewrites
      · rw [nextChildren, children, List.append_assoc, List.singleton_append]
      · rw [List.map_cons, List.map_cons, value, values]

/-- A turn for two elements at one index.  The patches for their values change the
element where it stands, and leave the other elements alone. -/
theorem turn_element {old new element : Item} {patches : List Item}
    (diffs : Diffs caseSensitive (steps ++ [.element index]) old new patches) (small : index < usizeBound)
    (distinct : new.DistinctKeysIn caseSensitive) (wellFormed : node.WellFormed caseSensitive)
    (array : node.isArray = true) (there : node.child[index]? = some element)
    (value : element.json caseSensitive = old.json caseSensitive)
    (mendable : Mendable caseSensitive element new) :
    ∃ next changed, Rewrites caseSensitive steps patches node next ∧
      next.child = node.child.set index changed ∧ changed.json caseSensitive = new.json caseSensitive := by
  have inside := (List.getElem?_eq_some_iff.mp there).1
  by_cases replaced : Replaced old new
  · rcases diffs.replaced replaced with ⟨path, spells, rfl⟩
    rcases value_copied (mendable.shallow ((replaced_congr value).mpr replaced)) distinct with
      ⟨given, copy, made, copied, copyWellFormed, copyValue⟩
    rcases cjsonDetachItemViaPointer_eq_some there with ⟨rest, detached⟩
    rcases cjsonDetachItemViaPointer_wellFormed wellFormed detached with ⟨_, tidy, restChildren, fields⟩
    have room : index ≤ rest.child.length := by
      rw [restChildren, List.length_eraseIdx_of_lt inside]
      omega
    rcases insertItemInArray_array tidy (isArray_congr array fields) copyWellFormed room with
      ⟨result, inserted, resultWellFormed, resultFields, children⟩
    refine ⟨result, copy, ?_, ?_, copyValue⟩
    · rw [made]
      exact rewrites_replaceElement wellFormed array small spells detached copied inserted resultWellFormed
        resultFields
    · rw [children, restChildren, List.insertIdx_eraseIdx_self (Nat.ne_of_lt inside)]
  · rcases diffs.walked replaced element (wellFormed.child (List.mem_of_getElem? there)) value mendable with
      ⟨changed, rewrites, changedValue⟩
    have stands : Stands caseSensitive node index element (foldStep caseSensitive (.element index)) :=
      .element array
    exact ⟨_, changed, rewrites.below wellFormed small there stands, rfl, changedValue⟩

end Elements

/-- What the loops along two arrays give, from an index on.  In front of the index the
node has already been dealt with; behind it the patches turn elements with the values
of the first list into elements with the values of the second, by replacing, removing
from the end on, or appending. -/
structure CreatesElements (caseSensitive : Bool) (steps : List (Json.Step Bytes)) (index : Nat)
    (from_ to_ : List Item) (diff : Diffed (List Item)) : Prop where
  tidyFrom : List.Forall₂ (Tidied caseSensitive) from_ diff.from_
  tidyTo : List.Forall₂ (Tidied caseSensitive) to_ diff.to_
  walked : ∀ (node : Item) (front back : List Item), node.WellFormed caseSensitive -> node.isArray = true ->
    node.child = front ++ back -> front.length = index ->
    back.map (json caseSensitive) = from_.map (json caseSensitive) ->
    (∀ (index : Nat) (element new : Item), back[index]? = some element -> to_[index]? = some new ->
      Mendable caseSensitive element new) ->
    (∀ new ∈ to_.drop back.length, new.height ≤ cjsonCircularLimit) ->
    ∃ next newBack, Rewrites caseSensitive steps diff.patches node next ∧ next.child = front ++ newBack ∧
      newBack.map (json caseSensitive) = to_.map (json caseSensitive)

/-- The loops along two arrays: the pairs, and then the removals or the additions for
the array that is longer.  Removals repeat one index, since the rest of the array
moves up. -/
theorem createElementPatches_creates {index : Nat} {from_ to_ : List Item} (spells : Spells path steps)
    (small : index + from_.length < usizeBound)
    (fromDistinct : ∀ old ∈ from_, old.DistinctKeysIn caseSensitive)
    (toDistinct : ∀ new ∈ to_, new.DistinctKeysIn caseSensitive)
    (pairs : ∀ old ∈ from_, ∀ new ∈ to_, ∀ path steps, Spells path steps ->
      ∃ diff, create path old new = some diff ∧ Creates caseSensitive steps old new diff) :
    ∃ diff, createElementPatches create path index from_ to_ = some diff ∧
      CreatesElements caseSensitive steps index from_ to_ diff := by
  induction from_ generalizing index to_ with
  | nil =>
      refine ⟨⟨to_.map fun new => patchItem addText (encodedPath path [45]) (cjsonDuplicate new), [], to_⟩, ?_,
        .nil, tidied_refl toDistinct, ?_⟩
      · cases to_ with
        | nil => rfl
        | cons new toRest =>
            simp only [createElementPatches, composePatch_suffix, Option.bind_some, mapM_some,
              Option.bind_eq_bind]
      · intro node front back wellFormed array children _ values _ shallow
        rw [List.map_nil, List.map_eq_nil_iff] at values
        subst values
        have dash : Spells (encodedPath path [45]) (steps ++ [.member [45]]) := spells_encodedPath spells [45]
        rcases rewrites_additions wellFormed array dash shallow toDistinct with
          ⟨next, added, rewrites, nextChildren, addedValues⟩
        refine ⟨next, added, rewrites, ?_, addedValues⟩
        rw [nextChildren, children, List.append_nil]
  | cons old fromRest ih =>
      have fromTidy := tidied_refl fromDistinct
      rw [List.length_cons] at small
      cases to_ with
      | nil =>
          refine ⟨⟨(old :: fromRest).map fun _ => patchItem removeText (encodedPath path (allocIndexString index))
            none, old :: fromRest, []⟩, ?_, fromTidy, .nil, ?_⟩
          · simp only [createElementPatches, composePatch_suffix, Option.bind_none, mapM_some,
              Option.bind_eq_bind, Option.bind_some]
          · intro node front back wellFormed array children length values _ _
            subst length
            have sameLength := congrArg List.length values
            rw [List.length_map, List.length_map] at sameLength
            have samePatches : ((old :: fromRest).map fun _ : Item =>
                patchItem removeText (encodedPath path (allocIndexString front.length)) none) =
                back.map fun _ => patchItem removeText (encodedPath path (allocIndexString front.length))
                  none := by
              rw [List.map_const', List.map_const', sameLength]
            rcases rewrites_removals wellFormed array children (by omega) (spells_allocIndexString spells _) with
              ⟨next, rewrites, nextChildren⟩
            refine ⟨next, [], ?_, ?_, rfl⟩
            · rw [samePatches]
              exact rewrites
            · rw [nextChildren, List.append_nil]
      | cons new toRest =>
          rcases pairs old List.mem_cons_self new List.mem_cons_self _ _
            (spells_allocIndexedPath spells index) with ⟨diff, made, creates⟩
          rcases @ih (index + 1) toRest (by omega)
            (fun other member => fromDistinct other (List.mem_cons_of_mem _ member))
            (fun other member => toDistinct other (List.mem_cons_of_mem _ member))
            (fun other member another inside =>
              pairs other (List.mem_cons_of_mem _ member) another (List.mem_cons_of_mem _ inside)) with
            ⟨rest, ran, created⟩
          refine ⟨⟨diff.patches ++ rest.patches, diff.from_ :: rest.from_, diff.to_ :: rest.to_⟩, ?_,
            .cons creates.tidyFrom created.tidyFrom, .cons creates.tidyTo created.tidyTo, ?_⟩
          · simp only [createElementPatches, made, ran, Option.bind_eq_bind, Option.bind_some]
          · intro node front back wellFormed array children length values mendable shallow
            cases back with
            | nil => cases values
            | cons element back =>
                rw [List.map_cons, List.map_cons, List.cons.injEq] at values
                have there : node.child[index]? = some element := by
                  rw [children, ← length, List.getElem?_append_right le_rfl, Nat.sub_self]
                  rfl
                rcases turn_element creates.diffs (by omega) (toDistinct new List.mem_cons_self) wellFormed array
                  there values.1 (mendable 0 element new rfl rfl) with
                  ⟨middle, changed, rewrites, middleChildren, changedValue⟩
                have split : middle.child = (front ++ [changed]) ++ back := by
                  rw [middleChildren, children, ← length, List.set_append_right _ _ le_rfl, Nat.sub_self,
                    List.set_cons_zero, List.append_assoc, List.singleton_append]
                rcases created.walked middle (front ++ [changed]) back rewrites.wellFormed
                  (isArray_congr array rewrites.fields) split (by rw [List.length_append, length]; rfl) values.2
                  (fun place => mendable (place + 1)) shallow with
                  ⟨next, newBack, rewritesRest, nextChildren, newValues⟩
                refine ⟨next, changed :: newBack, rewrites.append rewritesRest, ?_, ?_⟩
                · rw [nextChildren, List.append_assoc, List.singleton_append]
                · rw [List.map_cons, List.map_cons, changedValue, newValues]

end Lists

/-! ## Trees -/

section Trees

variable {caseSensitive : Bool}

/-- Members of one value stand under one name in both objects.  Distinct names make
the member of a name the only one that could have given its value. -/
theorem exists_partner {children others : List Item} {item : Item}
    (distinct : (children.map (nameIn caseSensitive)).Nodup)
    (same : jsonMembers caseSensitive children = jsonMembers caseSensitive others)
    (member : item ∈ children) :
    ∃ partner ∈ others, partner.nameIn caseSensitive = item.nameIn caseSensitive ∧
      partner.json caseSensitive = item.json caseSensitive := by
  have there := jsonMembers_of_mem distinct member
  rw [same] at there
  exact exists_child_of_jsonMembers there

theorem Gone.congr {to_ : List Item} {item partner : Item} (gone : Gone caseSensitive to_ item)
    (named : partner.nameIn caseSensitive = item.nameIn caseSensitive)
    (value : partner.json caseSensitive = item.json caseSensitive) : Gone caseSensitive to_ partner :=
  fun new member same => (replaced_congr value).mpr (gone new member (same.trans named))

/-- At the start all members are still to come.  The conditions under which two
objects are mendable are split up here into what each member of either list asks for. -/
theorem Pending.start {node target : Item} {from_ to_ : List Item}
    (names : DistinctNamesIn caseSensitive node.child)
    (fromDistinct : (from_.map (nameIn caseSensitive)).Nodup)
    (same : jsonMembers caseSensitive node.child = jsonMembers caseSensitive from_)
    (perm : to_.Perm target.child)
    (members : ∀ member ∈ node.child, ∀ new ∈ target.child,
      member.nameIn caseSensitive = new.nameIn caseSensitive -> Mendable caseSensitive member new)
    (added : ∀ new ∈ target.child, new.nameIn caseSensitive ∉ node.child.map (nameIn caseSensitive) ->
      new.height ≤ cjsonCircularLimit ∧ KeepsPlacesIn caseSensitive (new.nameIn caseSensitive))
    (gone : ∀ member ∈ node.child, Gone caseSensitive target.child member ->
      KeepsPlacesIn caseSensitive (member.nameIn caseSensitive) ∧
      ∀ earlier, [earlier, member].Sublist node.child -> earlier.nameIn false = member.nameIn false ->
        Gone caseSensitive target.child earlier ∧
          sortKey caseSensitive earlier < sortKey caseSensitive member) :
    Pending caseSensitive node from_ to_ := by
  have absent : ∀ name, name ∉ from_.map (nameIn caseSensitive) ->
      jsonMembers caseSensitive node.child name = none := by
    intro name outside
    rw [same, jsonMembers_eq_none_iff]
    exact outside
  have goneTo : ∀ item, Gone caseSensitive to_ item ↔ Gone caseSensitive target.child item :=
    fun item => forall_congr' fun new => imp_congr perm.mem_iff Iff.rfl
  constructor
  · intro old member
    rw [same]
    exact jsonMembers_of_mem fromDistinct member
  · exact fun new _ fresh => absent _ fresh
  · exact fun new member _ child inside named => members child inside new (perm.mem_iff.mp member) named
  · intro new member fresh
    have both := added new (perm.mem_iff.mp member) (jsonMembers_eq_none_iff.mp (absent _ fresh))
    exact ⟨both.1, keepsPlaces_key both.2 rfl⟩
  · intro old member isGone
    rcases exists_partner fromDistinct same.symm member with ⟨partner, inside, named, value⟩
    have partnerGone := ((goneTo old).mp isGone).congr named value
    exact keepsPlaces_key (gone partner inside partnerGone).1 named.symm
  · intro old member isGone name before loose
    rcases exists_partner fromDistinct same.symm member with ⟨partner, inside, named, value⟩
    have partnerGone := ((goneTo old).mp isGone).congr named value
    rcases List.sublist_map_iff.mp before with ⟨pair, isPair, pairNames⟩
    have two := congrArg List.length pairNames
    rw [List.length_map] at two
    rcases List.length_eq_two.mp two.symm with ⟨earlier, later, rfl⟩
    rw [List.map_cons, List.map_cons, List.map_nil, List.cons.injEq, List.cons.injEq] at pairNames
    have laterInside : later ∈ node.child := isPair.subset (List.mem_cons_of_mem _ List.mem_cons_self)
    have sameLater : later = partner :=
      List.inj_on_of_nodup_map names.2 laterInside inside (pairNames.2.1.symm.trans named.symm)
    subst sameLater
    have looseNames : earlier.nameIn false = later.nameIn false := by
      rw [← @map_toAsciiLowercase_nameIn caseSensitive earlier,
        ← @map_toAsciiLowercase_nameIn caseSensitive later, ← pairNames.1, named]
      exact loose
    rcases (gone later inside partnerGone).2 earlier isPair looseNames with ⟨earlierGone, less⟩
    rcases exists_partner names.2 same (isPair.subset List.mem_cons_self) with
      ⟨other, otherInside, otherName, otherValue⟩
    refine ⟨other, otherInside, (goneTo other).mpr (earlierGone.congr otherName otherValue),
      otherName.trans pairNames.1.symm, ?_⟩
    rw [sortKey_eq_iff.mpr otherName, ← sortKey_eq_iff.mpr named]
    exact less

/-! ## The pair itself -/

/-- Two nodes that are told apart as a whole give one patch, which replaces the one by
a copy of the other. -/
theorem createPatches_replaced {fuel : Nat} {path : Bytes} {from_ to_ : Item} (replaced : Replaced from_ to_)
    (fromNode : PlainNode from_) (toNode : PlainNode to_) :
    createPatches (fuel + 1) path from_ to_ caseSensitive =
      some ⟨[patchItem replaceText path (cjsonDuplicate to_)], from_, to_⟩ := by
  rw [createPatches, composePatch_plain]
  by_cases sameBase : from_.base = to_.base
  · rw [if_neg (not_not.mpr sameBase)]
    rcases replaced with apart | ⟨number, differ⟩ | ⟨string, differ⟩
    · exact absurd sameBase apart
    · rw [number]
      simp only []
      rw [if_pos differ]
      rfl
    · rcases fromNode.string string with ⟨first, firstStored⟩
      rcases toNode.string (sameBase ▸ string) with ⟨second, secondStored⟩
      rw [firstStored, secondStored, Option.map_some, Option.map_some, Ne, Option.some_inj,
        ← cstrCmp_eq_zero] at differ
      rw [string, firstStored, secondStored]
      simp only [cstrCmp, Option.bind_eq_bind, Option.bind_some]
      rw [if_pos differ]
  · rw [if_pos sameBase]
    rfl

/-- Two scalars that are not told apart are one value, and nothing is written down. -/
theorem createPatches_scalar {fuel : Nat} {path : Bytes} {from_ to_ : Item} (same : ¬ Replaced from_ to_)
    (fromPlain : Plain (from_.json caseSensitive)) (toPlain : Plain (to_.json caseSensitive))
    (notArray : from_.isArray = false) (notObject : from_.isObject = false) :
    createPatches (fuel + 1) path from_ to_ caseSensitive = some ⟨[], from_, to_⟩ ∧
      from_.json caseSensitive = to_.json caseSensitive := by
  have fromNode := plainNode fromPlain
  have toNode := plainNode toPlain
  rw [Replaced, not_or, not_or, not_not, not_and, not_and, not_or, not_not, not_not] at same
  rcases same with ⟨sameBase, numbers, strings⟩
  have scalar : SameScalar from_ to_ := by
    refine ⟨sameBase, fun number => ?_, strings⟩
    have sameInt := (numbers number).1
    rw [(fromNode.number number).1, (toNode.number (sameBase ▸ number)).1, sameInt]
    exact ⟨rfl, rfl⟩
  refine ⟨?_, json_of_sameScalar scalar fromNode.known.2 notArray notObject⟩
  rw [createPatches, if_neg (not_not.mpr sameBase)]
  cases kind : from_.base with
  | invalid => exact absurd kind fromNode.known.1
  | raw => exact absurd kind fromNode.known.2
  | null => rfl
  | false => rfl
  | true => rfl
  | array => rw [Item.isArray, kind] at notArray; cases notArray
  | object => rw [Item.isObject, kind] at notObject; cases notObject
  | number =>
      simp only []
      exact if_neg (not_or.mpr ⟨not_not.mpr (numbers kind).1, (numbers kind).2⟩)
  | string =>
      rcases fromNode.string kind with ⟨first, firstStored⟩
      rcases toNode.string (sameBase ▸ kind) with ⟨second, secondStored⟩
      have equal := strings kind
      rw [firstStored, secondStored, Option.map_some, Option.map_some, Option.some_inj,
        ← cstrCmp_eq_zero] at equal
      simp only [firstStored, secondStored, cstrCmp, Option.bind_eq_bind, Option.bind_some]
      exact if_neg (not_not.mpr equal)

/-- `create_patches` for two arrays, given that it works for any two of their
elements.  The index that a path can spell is bounded by the size of a word, so the
array must be addressable. -/
theorem createPatches_array {fuel : Nat} {path : Bytes} {steps : List (Json.Step Bytes)} {from_ to_ : Item}
    (spells : Spells path steps) (array : from_.isArray = true) (toArray : to_.isArray = true)
    (fromDistinct : from_.DistinctKeysIn caseSensitive) (toDistinct : to_.DistinctKeysIn caseSensitive)
    (addressable : from_.Addressable)
    (pairs : ∀ old ∈ from_.child, ∀ new ∈ to_.child, ∀ path steps, Spells path steps ->
      ∃ diff, createPatches fuel path old new caseSensitive = some diff ∧
        Creates caseSensitive steps old new diff) :
    ∃ diff, createPatches (fuel + 1) path from_ to_ caseSensitive = some diff ∧
      Creates caseSensitive steps from_ to_ diff := by
  have base : from_.base = .array := beq_iff_eq.mp array
  have toBase : to_.base = .array := beq_iff_eq.mp toArray
  have short := addressable.length_lt
  rcases @createElementPatches_creates caseSensitive steps path _ 0 from_.child to_.child spells
    (by rwa [Nat.zero_add]) (fun _ => fromDistinct.child) (fun _ => toDistinct.child) pairs with
    ⟨below, ran, created⟩
  have notReplaced : ∀ item : Item, item.isArray = true -> ¬ Replaced item to_ := by
    rintro item isArray (apart | ⟨number, _⟩ | ⟨string, _⟩)
    · exact apart ((beq_iff_eq.mp isArray).trans toBase.symm)
    · exact absurd ((beq_iff_eq.mp isArray).symm.trans number) (by decide)
    · exact absurd ((beq_iff_eq.mp isArray).symm.trans string) (by decide)
  refine ⟨⟨below.patches, from_.withChildren below.from_ from_.headPrev,
      to_.withChildren below.to_ to_.headPrev⟩, ?_, ⟨fun replaced => absurd replaced (notReplaced _ array), ?_⟩,
    .withChildren created.tidyFrom fromDistinct, .withChildren created.tidyTo toDistinct⟩
  · rw [createPatches, if_neg (not_not.mpr (base.trans toBase.symm)), base]
    simp only [ran, Option.bind_eq_bind, Option.bind_some]
  · intro _ node wellFormed same mendable
    have nodeArray : node.isArray = true := by
      rw [Item.isArray, (sameScalar_of_json same).base]
      exact array
    rw [json_array nodeArray, json_array array, Json.array.injEq] at same
    have sameLength := congrArg List.length same
    rw [List.length_map, List.length_map] at sameLength
    cases mendable with
    | replace replaced _ => exact absurd replaced (notReplaced node nodeArray)
    | keep _ notArray _ => rw [nodeArray] at notArray; cases notArray
    | object nodeObject => exact absurd nodeObject (not_isObject_of_isArray nodeArray)
    | array _ _ elements appended =>
        rcases created.walked node [] node.child wellFormed nodeArray rfl rfl same elements appended with
          ⟨next, newBack, rewrites, children, values⟩
        refine ⟨next, rewrites, ?_⟩
        rw [json_array (isArray_congr nodeArray rewrites.fields), json_array toArray, children,
          List.nil_append, values]

theorem listed_sortObject {object : Item} (isObject : object.isObject = true)
    (distinct : object.DistinctKeysIn caseSensitive) :
    Listed caseSensitive (sortObject object caseSensitive).child where
  named child member :=
    (distinct.names isObject).1 child ((sortObject_child_perm object caseSensitive).mem_iff.mp member)
  inOrder := inOrder_sortObject (distinct.names isObject)
  distinct _ member := distinct.child ((sortObject_child_perm object caseSensitive).mem_iff.mp member)

/-- `create_patches` for two objects, given that it works for any two of their
members.  Both objects come back sorted, so what it compares are the members in the
order of their names. -/
theorem createPatches_object {fuel : Nat} {path : Bytes} {steps : List (Json.Step Bytes)} {from_ to_ : Item}
    (spells : Spells path steps) (isObject : from_.isObject = true) (toObject : to_.isObject = true)
    (fromDistinct : from_.DistinctKeysIn caseSensitive) (toDistinct : to_.DistinctKeysIn caseSensitive)
    (pairs : ∀ old ∈ from_.child, ∀ new ∈ to_.child, ∀ path steps, Spells path steps ->
      ∃ diff, createPatches fuel path old new caseSensitive = some diff ∧
        Creates caseSensitive steps old new diff) :
    ∃ diff, createPatches (fuel + 1) path from_ to_ caseSensitive = some diff ∧
      Creates caseSensitive steps from_ to_ diff := by
  have base : from_.base = .object := beq_iff_eq.mp isObject
  have toBase : to_.base = .object := beq_iff_eq.mp toObject
  have fromPerm := sortObject_child_perm from_ caseSensitive
  have toPerm := sortObject_child_perm to_ caseSensitive
  have fromTidy := tidied_sortObject caseSensitive fromDistinct isObject
  have toTidy := tidied_sortObject caseSensitive toDistinct toObject
  rcases createMemberPatches_creates spells (Nat.lt_succ_self _) (listed_sortObject isObject fromDistinct)
    (listed_sortObject toObject toDistinct)
    (fun old member new inside => pairs old (fromPerm.mem_iff.mp member) new (toPerm.mem_iff.mp inside)) with
    ⟨below, ran, created⟩
  have notReplaced : ∀ item : Item, item.isObject = true -> ¬ Replaced item to_ := by
    rintro item itemObject (apart | ⟨number, _⟩ | ⟨string, _⟩)
    · exact apart ((beq_iff_eq.mp itemObject).trans toBase.symm)
    · exact absurd ((beq_iff_eq.mp itemObject).symm.trans number) (by decide)
    · exact absurd ((beq_iff_eq.mp itemObject).symm.trans string) (by decide)
  refine ⟨⟨below.patches,
      (sortObject from_ caseSensitive).withChildren below.from_ (sortObject from_ caseSensitive).headPrev,
      (sortObject to_ caseSensitive).withChildren below.to_ (sortObject to_ caseSensitive).headPrev⟩, ?_,
    ⟨fun replaced => absurd replaced (notReplaced _ isObject), ?_⟩,
    fromTidy.trans (.withChildren created.tidyFrom fromTidy.distinct),
    toTidy.trans (.withChildren created.tidyTo toTidy.distinct)⟩
  · rw [createPatches, if_neg (not_not.mpr (base.trans toBase.symm)), base]
    simp only [ran, Option.bind_eq_bind, Option.bind_some]
  · intro _ node wellFormed same mendable
    have nodeObject : node.isObject = true := by
      rw [Item.isObject, (sameScalar_of_json same).base]
      exact isObject
    have names := wellFormed.distinct.names nodeObject
    have sortedNames := distinctNamesIn_perm fromPerm.symm (fromDistinct.names isObject)
    have members : jsonMembers caseSensitive node.child =
        jsonMembers caseSensitive (sortObject from_ caseSensitive).child := by
      rw [jsonMembers_perm fromPerm sortedNames.2]
      rw [json_object nodeObject, json_object isObject, Json.object.injEq] at same
      exact same
    cases mendable with
    | replace replaced _ => exact absurd replaced (notReplaced node nodeObject)
    | keep _ _ notObject => rw [nodeObject] at notObject; cases notObject
    | array nodeArray => exact absurd nodeObject (not_isObject_of_isArray nodeArray)
    | object _ _ pairsMend added gone =>
        have pending := Pending.start names sortedNames.2 members toPerm pairsMend added gone
        rcases created.walked node wellFormed nodeObject pending with ⟨next, rewrites, values⟩
        have nextObject : next.isObject = true := by
          rw [Item.isObject, Item.base, rewrites.fields]
          exact nodeObject
        refine ⟨next, rewrites, ?_⟩
        rw [json_object nextObject, json_object toObject,
          ← jsonMembers_perm toPerm (distinctNamesIn_perm toPerm.symm (toDistinct.names toObject)).2]
        apply congrArg Json.object
        funext name
        by_cases listed : name ∈ (sortObject from_ caseSensitive).child.map (nameIn caseSensitive) ∨
            name ∈ (sortObject to_ caseSensitive).child.map (nameIn caseSensitive)
        · exact (values name).1 listed
        · rw [(values name).2 listed, members, jsonMembers_eq_none_iff.mpr (mt Or.inl listed),
            jsonMembers_eq_none_iff.mpr (mt Or.inr listed)]

/-- `create_patches` for two trees with JSON values, by induction on the height.  It
ends with the fuel that its callers give it, and its patches bring the first tree to
the value of the second one wherever that tree may stand in a document. -/
theorem createPatches_creates {fuel : Nat} {path : Bytes} {steps : List (Json.Step Bytes)} {from_ to_ : Item}
    (spells : Spells path steps) (enough : from_.height < fuel)
    (fromDistinct : from_.DistinctKeysIn caseSensitive) (toDistinct : to_.DistinctKeysIn caseSensitive)
    (fromPlain : Plain (from_.json caseSensitive)) (toPlain : Plain (to_.json caseSensitive))
    (addressable : from_.Addressable) :
    ∃ diff, createPatches fuel path from_ to_ caseSensitive = some diff ∧
      Creates caseSensitive steps from_ to_ diff := by
  induction fuel generalizing path steps from_ to_ with
  | zero => omega
  | succ fuel ih =>
      by_cases replaced : Replaced from_ to_
      · refine ⟨_, createPatches_replaced replaced (plainNode fromPlain) (plainNode toPlain), ?_,
          .refl fromDistinct, .refl toDistinct⟩
        exact ⟨fun _ => ⟨path, spells, rfl⟩, fun same => absurd replaced same⟩
      · have sameBase := not_not.mp (not_or.mp replaced).1
        have pairs : from_.isArray = true ∨ from_.isObject = true ->
            ∀ old ∈ from_.child, ∀ new ∈ to_.child, ∀ path steps, Spells path steps ->
            ∃ diff, createPatches fuel path old new caseSensitive = some diff ∧
              Creates caseSensitive steps old new diff := by
          intro container old member new inside path steps spells
          have toContainer : to_.isArray = true ∨ to_.isObject = true := by
            rw [Item.isArray, Item.isObject, ← sameBase]
            exact container
          exact ih spells (height_lt_of_mem member enough) (fromDistinct.child member)
            (toDistinct.child inside) (plain_child fromPlain fromDistinct container member)
            (plain_child toPlain toDistinct toContainer inside) (addressable.child member)
        cases array : from_.isArray with
        | true =>
            have toArray : to_.isArray = true := by rwa [Item.isArray, ← sameBase]
            exact createPatches_array spells array toArray fromDistinct toDistinct addressable
              (pairs (Or.inl array))
        | false =>
            cases isObject : from_.isObject with
            | true =>
                have toObject : to_.isObject = true := by rwa [Item.isObject, ← sameBase]
                exact createPatches_object spells isObject toObject fromDistinct toDistinct
                  (pairs (Or.inr isObject))
            | false =>
                rcases @createPatches_scalar _ fuel path _ _ replaced fromPlain toPlain array isObject with
                  ⟨made, value⟩
                refine ⟨_, made, ⟨fun other => absurd other replaced, fun _ node wellFormed same _ => ?_⟩,
                  .refl fromDistinct, .refl toDistinct⟩
                exact ⟨node, .nil wellFormed, same.trans value⟩

end Trees

end CJson
