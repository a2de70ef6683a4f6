import CJson.Comparison
import CJson.FindPointer
import CJson.PatchMember

/-!
# Pointers as paths through values

A pointer text spells a path through a value, a step for each token.  In a tree the
walker follows it from position to position; changing the node it ends at changes
the value at the end of the path.
-/

namespace CJson

open CString Item

/-- The token of a step. -/
def stepToken : Json.Step Bytes -> Bytes
  | .element index => decimalDigits index
  | .member name => escape name

/-- The pointer that spells a path, without its terminator. -/
def pointerText (path : List (Json.Step Bytes)) : Bytes :=
  path.flatMap fun step => slash :: stepToken step

/-- A step as the lookups of a mode see it. -/
def foldStep (caseSensitive : Bool) : Json.Step Bytes -> Json.Step Bytes
  | .element index => .element index
  | .member name => .member (foldName caseSensitive name)

/-- Indices are numbers of the type `usize`, and names are C strings.  Every step that
the code can write down is of this kind. -/
def Spellable : Json.Step Bytes -> Prop
  | .element index => index < usizeBound
  | .member name => (0 : UInt8) ∉ name

theorem stepToken_free {step : Json.Step Bytes} (spellable : Spellable step) :
    (0 : UInt8) ∉ stepToken step ∧ slash ∉ stepToken step := by
  cases step with
  | element index =>
      constructor <;>
        exact fun inside => absurd (isDigit_of_mem_decimalDigits inside) (by decide)
  | member name => exact ⟨zero_not_mem_escape spellable, slash_not_mem_escape name⟩

theorem pointerText_append (front back : List (Json.Step Bytes)) :
    pointerText (front ++ back) = pointerText front ++ pointerText back := List.flatMap_append

theorem pointerText_concat (path : List (Json.Step Bytes)) (step : Json.Step Bytes) :
    pointerText (path ++ [step]) = pointerText path ++ slash :: stepToken step := by
  rw [pointerText_append]
  simp [pointerText]

theorem pointerText_free {path : List (Json.Step Bytes)} (spellable : ∀ step ∈ path, Spellable step) :
    (0 : UInt8) ∉ pointerText path := by
  intro inside
  rcases List.mem_flatMap.mp inside with ⟨step, member, inside⟩
  rcases List.mem_cons.mp inside with impossible | inside
  · exact slash_ne_zero impossible.symm
  · exact (stepToken_free (spellable step member)).1 inside

/-! ## Positions and steps -/

section Positions

variable {caseSensitive : Bool}

/-- The child at a position stands behind a step: an element behind its index, a
member behind its name in the mode. -/
inductive Stands (caseSensitive : Bool) (item : Item) (position : Nat) (next : Item) :
    Json.Step Bytes -> Prop where
  | element (array : item.isArray = true) : Stands caseSensitive item position next (.element position)
  | member (object : item.isObject = true) :
      Stands caseSensitive item position next (.member (next.nameIn caseSensitive))

theorem decodeArrayIndexFromPointer_decimalDigits {index : Nat} (small : index < usizeBound) :
    decodeArrayIndexFromPointer (decimalDigits index) = some index := by
  have free : (0 : UInt8) ∉ decimalDigits index ∧ slash ∉ decimalDigits index :=
    @stepToken_free (.element index) small
  have canonical := isCanonicalIndex_decimalDigits index
  rw [decodeArrayIndexFromPointer_iff, token_eq_self free.1 free.2]
  refine ⟨canonical.2.1, canonical.2.2, ?_⟩
  rw [decimalValue_eq_digitsValue, digitsValue_decimalDigits, Nat.mod_eq_of_lt small]

/-- The walker compares names as the lookups of its mode do, when the token is the
escaped name. -/
theorem comparePointers_escape_iff {name : Bytes} (free : (0 : UInt8) ∉ name) {member : Item}
    (named : member.string.isSome) :
    comparePointers member.string (escape name) caseSensitive = true ↔
      member.nameIn caseSensitive = foldName caseSensitive name := by
  rcases Option.isSome_iff_exists.mp named with ⟨string, stored⟩
  rw [stored, comparePointers, comparePointersLoop_iff,
    token_eq_self (zero_not_mem_escape free) (slash_not_mem_escape name), unescape_escape,
    nameIn_of_string stored]
  constructor
  · rintro ⟨_, same, matches_⟩
    cases same
    rw [foldName, foldName, text_eq_self free]
    exact matches_
  · intro same
    refine ⟨name, rfl, ?_⟩
    rw [foldName, foldName, text_eq_self free] at same
    exact same

/-- A turn of the walker takes a step. -/
theorem selectChild_stands {item next : Item} {step : Json.Step Bytes} {position : Nat}
    (wellFormed : item.WellFormed caseSensitive) (spellable : Spellable step)
    (there : item.child[position]? = some next)
    (stands : Stands caseSensitive item position next (foldStep caseSensitive step)) :
    selectChild caseSensitive item (stepToken step) = some position := by
  rcases List.getElem?_eq_some_iff.mp there with ⟨inside, rfl⟩
  cases step with
  | element index =>
      cases stands with
      | element array =>
          rw [selectChild, if_pos array, stepToken, decodeArrayIndexFromPointer_decimalDigits spellable]
          exact if_pos inside
  | member name =>
      rw [foldStep] at stands
      generalize foldedEq : foldName caseSensitive name = folded at stands
      cases stands with
      | member object =>
          have distinct := wellFormed.distinct.names object
          have notArray : ¬ item.isArray = true := fun array => not_isObject_of_isArray array object
          rw [stepToken, selectChild, if_neg notArray, if_pos object, List.findIdx?_eq_some_iff_getElem]
          refine ⟨inside, ?_, fun earlier before => ?_⟩
          · exact (comparePointers_escape_iff spellable (distinct.1 _ (List.getElem_mem inside))).mpr
              foldedEq.symm
          · intro hit
            have within : earlier < item.child.length := by omega
            rw [comparePointers_escape_iff spellable (distinct.1 _ (List.getElem_mem within))] at hit
            have same : (item.child.map (nameIn caseSensitive))[earlier]? =
                (item.child.map (nameIn caseSensitive))[position]? := by
              rw [List.getElem?_map, List.getElem?_map, there, List.getElem?_eq_getElem within,
                Option.map_some, Option.map_some, hit, foldedEq]
            have := (List.getElem?_inj (by rwa [List.length_map]) distinct.2).mp same
            omega

/-! ## Changing a child -/

/-- An exchange that a map does not see. -/
theorem map_set_of_eq {α : Type} (see : Item -> α) {children : List Item} {next new : Item}
    {position : Nat} (there : children[position]? = some next) (same : see new = see next) :
    (children.set position new).map see = children.map see := by
  rw [List.map_set, same]
  apply List.ext_getElem?
  intro other
  by_cases here : position = other
  · subst here
    have inside := (List.getElem?_eq_some_iff.mp there).1
    rw [List.getElem?_set_self (by rwa [List.length_map]), List.getElem?_map, there, Option.map_some]
  · rw [List.getElem?_set_ne here]

/-- A tree with another child in the place of one of the same name. -/
theorem Item.WellFormed.set {item next new : Item} {position : Nat}
    (wellFormed : item.WellFormed caseSensitive) (there : item.child[position]? = some next)
    (same : new.string = next.string) (newWellFormed : new.WellFormed caseSensitive) :
    (item.withChildren (item.child.set position new) item.headPrev).WellFormed caseSensitive := by
  have sameName : new.nameIn caseSensitive = next.nameIn caseSensitive := by
    rw [nameIn, nameIn, key, key, same]
  apply Item.WellFormed.withChildren
  · intro _
    rw [List.length_set]
    exact wellFormed.linked.headPrev (List.ne_nil_of_mem (List.mem_of_getElem? there))
  · intro object
    have distinct := wellFormed.distinct.names object
    refine ⟨fun child member => ?_, ?_⟩
    · rcases List.mem_or_eq_of_mem_set member with old | rfl
      · exact distinct.1 child old
      · rw [same]
        exact distinct.1 next (List.mem_of_getElem? there)
    · rw [map_set_of_eq _ there sameName]
      exact distinct.2
  · intro child member
    rcases List.mem_or_eq_of_mem_set member with old | rfl
    · exact wellFormed.child old
    · exact newWellFormed

/-- The members, with another value under one of the names.  The new member must have
the name of the old one, which no other member has. -/
theorem jsonMembers_set {children : List Item} {next new : Item} {position : Nat}
    (distinct : (children.map (nameIn caseSensitive)).Nodup) (there : children[position]? = some next)
    (same : new.nameIn caseSensitive = next.nameIn caseSensitive) :
    jsonMembers caseSensitive (children.set position new) =
      Function.update (jsonMembers caseSensitive children) (next.nameIn caseSensitive)
        (some (new.json caseSensitive)) := by
  induction children generalizing position with
  | nil => cases there
  | cons head children ih =>
      rw [List.map_cons, List.nodup_cons] at distinct
      funext name
      cases position with
      | zero =>
          cases there
          rw [List.set_cons_zero, jsonMembers, same]
          by_cases here : next.nameIn caseSensitive = name
          · rw [if_pos here, ← here, Function.update_self]
          · rw [if_neg here, Function.update_of_ne (Ne.symm here), jsonMembers, if_neg here]
      | succ position =>
          rw [List.getElem?_cons_succ] at there
          have apart : head.nameIn caseSensitive ≠ next.nameIn caseSensitive := by
            intro equal
            exact distinct.1 (equal ▸ List.mem_map_of_mem (List.mem_of_getElem? there))
          rw [List.set_cons_succ, jsonMembers, ih distinct.2 there]
          by_cases here : head.nameIn caseSensitive = name
          · subst here
            rw [if_pos rfl, Function.update_of_ne apart, jsonMembers, if_pos rfl]
          · rw [if_neg here, Function.update_apply, Function.update_apply, jsonMembers, if_neg here]

/-! ## Paths -/

theorem Item.at?_concat (item : Item) (place : Item.Path) (position : Nat) :
    item.at? (place ++ [position]) = (item.at? place).bind fun node => node.child[position]? := by
  induction place generalizing item with
  | nil =>
      rw [List.nil_append, Item.at?, Item.at?, Option.bind_some]
      cases item.child[position]? <;> rfl
  | cons first place ih =>
      rw [List.cons_append, Item.at?, Item.at?]
      cases item.child[first]? with
      | none => rfl
      | some next => exact ih next

/-- A change of a child is a change of the node above it.  Changes far below a node
are brought up to it in this way, one step at a time. -/
theorem Item.modify_concat {item node : Item} {place : Item.Path} (found : item.at? place = some node)
    {position : Nat} {next : Item} (there : node.child[position]? = some next) (new : Item) :
    item.modify (fun _ => some new) (place ++ [position]) =
      item.modify (fun _ => some (node.withChildren (node.child.set position new) node.headPrev)) place := by
  induction place generalizing item with
  | nil =>
      cases found
      simp only [List.nil_append, Item.modify, there, Option.map_some]
  | cons first place ih =>
      cases child : item.child[first]? with
      | none => simp [Item.at?, child] at found
      | some below =>
          simp only [Item.at?, child] at found
          simp only [List.cons_append, Item.modify, child, ih found]

/-- The second of two changes of a node counts. -/
theorem Item.modify_modify {item changed : Item} {place : Item.Path} {first second : Item}
    (modified : item.modify (fun _ => some first) place = some changed) :
    changed.modify (fun _ => some second) place = item.modify (fun _ => some second) place := by
  induction place generalizing item changed with
  | nil => rfl
  | cons position place ih =>
      cases child : item.child[position]? with
      | none => simp [Item.modify, child] at modified
      | some next =>
          simp only [Item.modify, child] at modified
          rcases Option.map_eq_some_iff.mp modified with ⟨below, belowModified, rfl⟩
          have inside := (List.getElem?_eq_some_iff.mp child).1
          simp only [Item.modify, child, withChildren_child, List.getElem?_set_self inside,
            ih belowModified, List.set_set]
          rfl

theorem getItemFromPointer_pointerText (item : Item) (steps : List (Json.Step Bytes)) :
    getItemFromPointer item (pointerText steps) caseSensitive =
      followPointer caseSensitive (pointerText steps) item := by
  cases steps with
  | nil => rfl
  | cons step steps => exact if_pos rfl

/-- In a well-formed document steps lead to a place, and to the node that stands
there.  The steps are what a pointer spells, the place is where the node is; the
relation is what connects the two. -/
inductive Leads (caseSensitive : Bool) (document : Item) :
    List (Json.Step Bytes) -> Item.Path -> Item -> Prop where
  | here (wellFormed : document.WellFormed caseSensitive) : Leads caseSensitive document [] [] document
  | child {parent next : Item} {step : Json.Step Bytes} {position : Nat} {place : Item.Path}
      {steps : List (Json.Step Bytes)} (leads : Leads caseSensitive document steps place parent)
      (spellable : Spellable step) (there : parent.child[position]? = some next)
      (stands : Stands caseSensitive parent position next (foldStep caseSensitive step)) :
      Leads caseSensitive document (steps ++ [step]) (place ++ [position]) next

namespace Leads

variable {document node : Item} {place : Item.Path} {steps : List (Json.Step Bytes)}

theorem spellable (leads : Leads caseSensitive document steps place node) :
    ∀ step ∈ steps, Spellable step := by
  induction leads with
  | here wellFormed => exact fun _ impossible => nomatch impossible
  | child _ spellable _ _ ih =>
      intro step member
      rcases List.mem_append.mp member with earlier | last
      · exact ih step earlier
      · exact List.mem_singleton.mp last ▸ spellable

theorem wellFormed (leads : Leads caseSensitive document steps place node) :
    node.WellFormed caseSensitive := by
  induction leads with
  | here wellFormed => exact wellFormed
  | child _ _ there _ ih => exact ih.child (List.mem_of_getElem? there)

theorem at? (leads : Leads caseSensitive document steps place node) : document.at? place = some node := by
  induction leads with
  | here wellFormed => rfl
  | child _ _ there _ ih => rw [Item.at?_concat, ih, Option.bind_some, there]

/-- The walker follows the steps. -/
theorem walked (leads : Leads caseSensitive document steps place node) :
    getItemFromPointer document (pointerText steps) caseSensitive = some place := by
  rw [getItemFromPointer_pointerText]
  induction leads with
  | here wellFormed => rfl
  | child parentLeads stepSpellable there stands ih =>
      have free := stepToken_free stepSpellable
      have selected := selectChild_stands parentLeads.wellFormed stepSpellable there stands
      rw [pointerText_concat, followPointer_append _ _ (pointerText_free parentLeads.spellable) free.1 free.2,
        ih, Option.bind_some, parentLeads.at?, Option.bind_some, selected, Option.bind_some, there]
      rfl

/-- Another node of the same fields can be put at the place. -/
theorem modify {new : Item} (leads : Leads caseSensitive document steps place node)
    (same : new.fields = node.fields) (newWellFormed : new.WellFormed caseSensitive) :
    ∃ changed, document.modify (fun _ => some new) place = some changed ∧
      Leads caseSensitive changed steps place new := by
  induction leads generalizing new with
  | here wellFormed => exact ⟨new, rfl, .here newWellFormed⟩
  | @child parent next step position place steps parentLeads stepSpellable there stands ih =>
      have inside := (List.getElem?_eq_some_iff.mp there).1
      have sameString : new.string = next.string := congrArg Fields.string same
      have above := parentLeads.wellFormed.set there sameString newWellFormed
      rcases @ih (parent.withChildren (parent.child.set position new) parent.headPrev) rfl above with
        ⟨changed, modified, leads⟩
      refine ⟨changed, ?_, leads.child stepSpellable ?_ ?_⟩
      · rw [Item.modify_concat parentLeads.at? there, modified]
      · exact List.getElem?_set_self inside
      · have sameName : new.nameIn caseSensitive = next.nameIn caseSensitive := by
          rw [nameIn, nameIn, key, key, sameString]
        generalize foldStep caseSensitive step = folded at stands
        cases stands with
        | element array => exact .element array
        | member object =>
            rw [← sameName]
            exact .member object

end Leads

end Positions
end CJson
