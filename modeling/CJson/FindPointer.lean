import CJson.Escape
import CJson.Heap
import CJson.Library.Returns

/-!
# Finding a pointer to a node

`cJSONUtils_FindPointerFromObjectTo` searches a tree for a node and puts the
pointer together on its way back up, one token in front of another.  The walker
takes the pointer apart from the front.  A node is given by its path from the
node where the search starts; a node that is not below it has none.
-/

namespace CJson

open CString

/-- The path of a node from the child at `position`. -/
def underChild (position : Nat) : Option Item.Path -> Option Item.Path
  | none => none
  | some [] => none
  | some (first :: path) => if first = position then some path else none

/-- `"/<array_index><path>"`. -/
def indexedPointer (childIndex : Nat) (targetPointer : Bytes) : Bytes :=
  slash :: (decimalDigits childIndex ++ (text targetPointer ++ [0]))

/-- `"/<name><path>"`, with the name escaped. -/
def namedPointer (string targetPointer : Bytes) : Bytes :=
  let room := (text targetPointer).length + pointerEncodedLength string + 1
  let fullPointer := encodeStringAsPointer (slash :: List.replicate room 0) 1 string
  -- strcat
  text fullPointer ++ (text targetPointer ++ [0])

/-- The pointer from a node with these fields, when the target has been found
under one of its children. -/
def extendPointer (fields : Fields) (childIndex : Nat) (currentChild : Item)
    (targetPointer : Bytes) : Except MemoryFault (Option Bytes) :=
  if fields.type_.base = .array then .ok (some (indexedPointer childIndex targetPointer))
  else if fields.type_.base = .object then
    match currentChild.string with
    | none => .error .null
    | some string => .ok (some (namedPointer string targetPointer))
  else
    -- reached leaf of the tree, found nothing
    .ok none

mutual

/-- `cJSONUtils_FindPointerFromObjectTo`. -/
def cjsonUtilsFindPointerFromObjectTo : Item -> Option Item.Path -> Except MemoryFault (Option Bytes)
  | .mk fields child _, target =>
      if target = some [] then .ok (some [0])
      else findPointerBelow fields child 0 target

/-- The loop over the children of a node with these fields, the first of which has the
given index.  The first child below which the target is found is the one whose pointer
is extended. -/
def findPointerBelow :
    Fields -> List Item -> Nat -> Option Item.Path -> Except MemoryFault (Option Bytes)
  | _, [], _, _ => .ok none
  | fields, currentChild :: rest, childIndex, target => do
      match ← cjsonUtilsFindPointerFromObjectTo currentChild (underChild childIndex target) with
      | some targetPointer => extendPointer fields childIndex currentChild targetPointer
      | none => findPointerBelow fields rest (childIndex + 1) target

end

/-! ## What the search returns -/

/-- The path leads to a node, and through arrays and objects only.  Children that hang
on a node of another kind are there in memory, but no pointer can name them. -/
def Item.Exposes : Item -> Item.Path -> Prop
  | _, [] => True
  | item, position :: path =>
      (item.isArray = true ∨ item.isObject = true) ∧
        ∃ next, item.child[position]? = some next ∧ next.Exposes path

/-- The pointer text that spells a path, without its terminator: the index of an
element, the escaped name of a member. -/
def pointerTo : Item -> Item.Path -> Bytes
  | _, [] => []
  | item, position :: path =>
      match item.child[position]? with
      | none => []
      | some next =>
          slash :: ((if item.isArray then decimalDigits position else escape next.key) ++
            pointerTo next path)

theorem zero_not_mem_pointerTo (item : Item) (path : Item.Path) : (0 : UInt8) ∉ pointerTo item path := by
  induction path generalizing item with
  | nil => exact List.not_mem_nil
  | cons position path ih =>
      rw [pointerTo]
      cases child : item.child[position]? with
      | none => exact List.not_mem_nil
      | some next =>
          intro member
          rcases List.mem_cons.mp member with impossible | member
          · exact slash_ne_zero impossible.symm
          · rcases List.mem_append.mp member with inToken | later
            · by_cases array : item.isArray = true
              · rw [if_pos array] at inToken
                exact absurd (isDigit_of_mem_decimalDigits inToken) (by decide)
              · rw [if_neg array] at inToken
                exact zero_not_mem_escape (zero_not_mem_text _) inToken
            · exact ih next later

/-- The loop has gone past the child that the path runs through, or there is no
such child. -/
private theorem findPointerBelow_absent {fields : Fields} {target : Option Item.Path} :
    ∀ {children : List Item} {childIndex : Nat},
      (∀ item ∈ children, cjsonUtilsFindPointerFromObjectTo item none = .ok none) ->
      (∀ position, childIndex ≤ position -> underChild position target = none) ->
      findPointerBelow fields children childIndex target = .ok none
  | [], _, _, _ => by rw [findPointerBelow]
  | currentChild :: rest, childIndex, absent, elsewhere => by
      rw [findPointerBelow, elsewhere childIndex le_rfl, absent currentChild List.mem_cons_self]
      exact findPointerBelow_absent (fun item member => absent item (List.mem_cons_of_mem _ member))
        (fun position later => elsewhere position (by omega))

/-- The search for a node that is not in the tree. -/
theorem findPointer_absent (item : Item) :
    cjsonUtilsFindPointerFromObjectTo item none = .ok none := by
  induction item using Item.induct with
  | node fields child headPrev ih =>
      rw [cjsonUtilsFindPointerFromObjectTo, if_neg (by simp)]
      exact findPointerBelow_absent ih (fun _ _ => rfl)

/-- The loop, from a child in front of the one that the path runs through.  The
children before that one contain no part of the path, so the search below them comes
back with nothing. -/
private theorem findPointerBelow_eq (fields : Fields) (path : Item.Path) :
    ∀ (children : List Item) (childIndex offset : Nat),
      findPointerBelow fields children childIndex (some ((childIndex + offset) :: path)) =
        match children[offset]? with
        | none => .ok none
        | some next =>
            match cjsonUtilsFindPointerFromObjectTo next (some path) with
            | .error fault => .error fault
            | .ok none => .ok none
            | .ok (some targetPointer) =>
                extendPointer fields (childIndex + offset) next targetPointer
  | [], _, _ => by rw [findPointerBelow]; rfl
  | currentChild :: rest, childIndex, 0 => by
      rw [findPointerBelow, underChild, if_pos (Nat.add_zero childIndex), List.getElem?_cons_zero]
      cases found : cjsonUtilsFindPointerFromObjectTo currentChild (some path) with
      | error fault => simp only [found, Except.error_bind]
      | ok result =>
          simp only [found, Except.ok_bind]
          cases result with
          | some targetPointer => rfl
          | none =>
              apply findPointerBelow_absent (fun item _ => findPointer_absent item)
              intro position later
              rw [underChild, if_neg (by omega)]
  | currentChild :: rest, childIndex, offset + 1 => by
      rw [findPointerBelow, underChild, if_neg (by omega), findPointer_absent]
      have moved := findPointerBelow_eq fields path rest (childIndex + 1) offset
      rw [show childIndex + 1 + offset = childIndex + (offset + 1) by omega] at moved
      exact moved

/-- One turn of the search, by the child that the path runs through.  What the search
finds below that child is extended by its index or by its escaped name. -/
theorem findPointer_cons (item : Item) (position : Nat) (path : Item.Path) :
    cjsonUtilsFindPointerFromObjectTo item (some (position :: path)) =
      match item.child[position]? with
      | none => .ok none
      | some next =>
          match cjsonUtilsFindPointerFromObjectTo next (some path) with
          | .error fault => .error fault
          | .ok none => .ok none
          | .ok (some targetPointer) => extendPointer item.fields position next targetPointer := by
  cases item with
  | mk fields child headPrev =>
      rw [cjsonUtilsFindPointerFromObjectTo, if_neg (by simp)]
      have loop := findPointerBelow_eq fields path child 0 position
      rwa [Nat.zero_add] at loop

theorem namedPointer_eq (string : Bytes) {rest : Bytes} (free : (0 : UInt8) ∉ rest) :
    namedPointer string (rest ++ [0]) = slash :: (escape (text string) ++ rest) ++ [0] := by
  have behind : text (rest ++ [0]) = rest := text_append_zero free []
  have tokenFree : (0 : UInt8) ∉ slash :: escape (text string) := by
    rw [List.mem_cons, not_or]
    exact ⟨slash_ne_zero.symm, zero_not_mem_escape (zero_not_mem_text string)⟩
  have encoded := @encodeStringAsPointer_eq
    (slash :: List.replicate (rest.length + pointerEncodedLength string + 1) 0) 1 string
    (by rw [List.length_cons, List.length_replicate]; omega)
  rw [namedPointer, behind, encoded, List.take_succ_cons, List.take_zero, List.cons_append,
    List.nil_append, ← List.cons_append, text_append_zero tokenFree, List.cons_append,
    List.cons_append, List.append_assoc]

/-- The search finds exactly the nodes that are reached through arrays and
objects, and spells the path that leads there. -/
theorem findPointer_eq {item : Item} (distinct : item.DistinctKeys) (path : Item.Path) :
    (item.Exposes path ->
      cjsonUtilsFindPointerFromObjectTo item (some path) = .ok (some (pointerTo item path ++ [0]))) ∧
      (¬ item.Exposes path -> cjsonUtilsFindPointerFromObjectTo item (some path) = .ok none) := by
  induction path generalizing item with
  | nil =>
      cases item with
      | mk fields child headPrev =>
          rw [cjsonUtilsFindPointerFromObjectTo, if_pos rfl]
          exact ⟨fun _ => rfl, fun impossible => absurd trivial impossible⟩
  | cons position path ih =>
      rw [findPointer_cons]
      cases child : item.child[position]? with
      | none =>
          constructor
          · rintro ⟨_, next, found, _⟩
            rw [child] at found
            cases found
          · exact fun _ => rfl
      | some next =>
          have below := ih (distinct.child (List.mem_of_getElem? child))
          by_cases exposed : next.Exposes path
          · simp only [below.1 exposed, extendPointer]
            have spelled : pointerTo item (position :: path) =
                slash :: ((if item.isArray then decimalDigits position else escape next.key) ++
                  pointerTo next path) := by
              rw [pointerTo, child]
            have free := zero_not_mem_pointerTo next path
            rw [spelled]
            by_cases array : item.isArray = true
            · have base : item.fields.type_.base = .array := by simpa [Item.isArray, Item.base] using array
              rw [if_pos base, if_pos array, indexedPointer, text_append_zero free]
              constructor
              · exact fun _ => by rw [List.cons_append, List.append_assoc]
              · exact fun hidden => absurd ⟨Or.inl array, next, child, exposed⟩ hidden
            · have base : item.fields.type_.base ≠ .array := by simpa [Item.isArray, Item.base] using array
              rw [if_neg base, if_neg array]
              by_cases object : item.isObject = true
              · have objectBase : item.fields.type_.base = .object := by
                  simpa [Item.isObject, Item.base] using object
                obtain ⟨string, named⟩ := Option.isSome_iff_exists.mp
                  ((distinct.names object).1 next (List.mem_of_getElem? child))
                rw [if_pos objectBase, named, Item.key, named]
                constructor
                · intro _
                  simp only [namedPointer_eq string free]
                  rfl
                · exact fun hidden => absurd ⟨Or.inr object, next, child, exposed⟩ hidden
              · have leaf : item.fields.type_.base ≠ .object := by simpa [Item.isObject, Item.base] using object
                rw [if_neg leaf]
                constructor
                · rintro ⟨container, _⟩
                  exact absurd container (not_or.mpr ⟨array, object⟩)
                · exact fun _ => rfl
          · simp only [below.2 exposed]
            constructor
            · rintro ⟨_, other, found, otherExposed⟩
              rw [child] at found
              cases found
              exact absurd otherExposed exposed
            · exact fun _ => trivial

/-! ## Following the pointer that was found -/

theorem decimalValue_eq_digitsValue (digits : Bytes) : decimalValue digits = digitsValue digits := by
  rw [decimalValue, digitsValue]
  congr 1
  funext value digit
  rw [Nat.mul_comm]

/-- A printed index is a canonical array index. -/
theorem isCanonicalIndex_decimalDigits (index : Nat) : IsCanonicalIndex (decimalDigits index) := by
  refine ⟨decimalDigits_ne_nil index, ?_, ?_⟩
  · exact List.all_eq_true.mpr fun byte inside => isDigit_of_mem_decimalDigits inside
  · intro leading
    rw [decimalDigits] at leading ⊢
    by_cases zero : index = 0
    · rw [if_pos zero, List.length_singleton]
    · rw [if_neg zero] at leading
      have nonempty : Nat.digits 10 index ≠ [] := Nat.digits_ne_nil_iff_ne_zero.mpr zero
      have last := Nat.getLast_digit_ne_zero 10 zero
      have split := List.dropLast_append_getLast nonempty
      rw [← split, List.reverse_append, List.reverse_singleton, List.singleton_append, List.map_cons,
        first_cons] at leading
      have small := Nat.digits_lt_base (by decide) (List.getLast_mem nonempty)
      have value := congrArg UInt8.toNat leading
      rw [digit_toNat small] at value
      exact absurd (Nat.add_left_cancel value) last

/-- A token in front of a pointer that is at the end of a token. -/
theorem token_append {front rest : Bytes} (free : (0 : UInt8) ∉ front)
    (oneToken : slash ∉ front) (ends : tokenEnds rest = true) :
    token (front ++ rest) = front ∧ tokens (front ++ rest) = tokens rest := by
  induction front with
  | nil => exact ⟨(tokenEnds_iff rest).mp ends, rfl⟩
  | cons byte front ih =>
      rw [List.mem_cons, not_or] at free oneToken
      have inside : ¬ (byte = 0 ∨ byte = slash) := not_or.mpr ⟨Ne.symm free.1, Ne.symm oneToken.1⟩
      have below := ih free.2 oneToken.2
      rw [List.cons_append, token_cons, if_neg inside, below.1, tokens, if_neg (Ne.symm free.1),
        if_neg (Ne.symm oneToken.1), below.2]
      exact ⟨rfl, rfl⟩

private theorem tokenEnds_pointerTo (item : Item) (path : Item.Path) :
    tokenEnds (pointerTo item path ++ [0]) = true := by
  cases path with
  | nil => rfl
  | cons position path =>
      rw [pointerTo]
      cases item.child[position]? with
      | none => rfl
      | some next => rfl

/-- The RFC reads the pointer that spells a path as that path. -/
theorem designates_pointerTo {item : Item} {path : Item.Path} (distinct : item.DistinctKeys)
    (exposes : item.Exposes path) : Designates item (tokens (pointerTo item path ++ [0])) path := by
  induction path generalizing item with
  | nil => exact .here item
  | cons position path ih =>
      rcases exposes with ⟨container, next, child, exposed⟩
      have below := ih (distinct.child (List.mem_of_getElem? child)) exposed
      have ends := tokenEnds_pointerTo next path
      rw [pointerTo, child]
      simp only [List.cons_append, List.append_assoc]
      rw [tokens, if_neg slash_ne_zero, if_pos rfl]
      by_cases array : item.isArray = true
      · have digits := isCanonicalIndex_decimalDigits position
        have isDigits : ∀ byte ∈ decimalDigits position, byte ≠ 0 ∧ byte ≠ slash := by
          intro byte inside
          have digit := isDigit_of_mem_decimalDigits inside
          constructor <;> (rintro rfl; exact absurd digit (by decide))
        have split := token_append (fun inside => (isDigits 0 inside).1 rfl)
          (fun inside => (isDigits slash inside).2 rfl) ends
        rw [if_pos array, split.1, split.2]
        have spelled : decimalValue (decimalDigits position) = position := by
          rw [decimalValue_eq_digitsValue, digitsValue_decimalDigits]
        exact .step (.element array digits spelled child) below
      · have object : item.isObject = true := container.resolve_left array
        obtain ⟨string, named⟩ := Option.isSome_iff_exists.mp
          ((distinct.names object).1 next (List.mem_of_getElem? child))
        have keyFree : (0 : UInt8) ∉ next.key := zero_not_mem_text _
        have split := token_append (zero_not_mem_escape keyFree) (slash_not_mem_escape next.key) ends
        rw [if_neg array, split.1, split.2]
        have key : next.string.map text = some next.key := by
          rw [Item.key, named]
          rfl
        exact .step (.member object (unescape_escape next.key) child key) below

/-- The search returns a pointer exactly for the nodes that are reached through
arrays and objects only, and the walker follows it to that very node. -/
theorem findPointer_round_trip (root : Item) (target : Option Item.Path)
    (distinct : root.DistinctKeys) (addressable : root.Addressable) :
    ∃ result, cjsonUtilsFindPointerFromObjectTo root target = .ok result ∧
      (result.isSome = true ↔ ∃ path, target = some path ∧ root.Exposes path) ∧
      ∀ pointer, result = some pointer ->
        cjsonUtilsGetPointerCaseSensitive root pointer = target := by
  cases target with
  | none =>
      refine ⟨none, findPointer_absent root, ?_, fun _ impossible => nomatch impossible⟩
      exact iff_of_false Bool.false_ne_true (fun ⟨_, impossible, _⟩ => nomatch impossible)
  | some path =>
      by_cases exposes : root.Exposes path
      · refine ⟨_, (findPointer_eq distinct path).1 exposes, ?_, ?_⟩
        · exact iff_of_true rfl ⟨path, rfl, exposes⟩
        · rintro pointer found
          cases found
          have followed := (followPointer_iff (pointerTo root path ++ [0]) distinct addressable path).mpr
            ⟨false, (designates_pointerTo distinct exposes).loosely⟩
          rw [cjsonUtilsGetPointerCaseSensitive, getItemFromPointer]
          cases path with
          | nil => rfl
          | cons position path =>
              have leading : first (pointerTo root (position :: path) ++ [0]) = slash := by
                rcases exposes with ⟨_, next, child, _⟩
                rw [pointerTo, child]
                rfl
              rw [if_pos leading, followed]
      · refine ⟨none, (findPointer_eq distinct path).2 exposes, ?_, fun _ impossible => nomatch impossible⟩
        refine iff_of_false Bool.false_ne_true ?_
        rintro ⟨other, same, otherExposes⟩
        cases same
        exact exposes otherExposes

/-- The document `{"~/": [null]}`. -/
def escapedName : Item :=
  .mk { type_ := { base := .object } }
    [.mk { type_ := { base := .array }, string := some [tilde, slash, 0] }
      [.mk { type_ := { base := .null } } [] .null] (.at 0)] (.at 0)

private theorem escapedName_distinctKeys : escapedName.DistinctKeys := by
  refine .mk (fun _ => ⟨by decide, by decide⟩) (fun item member => ?_)
  rw [List.mem_singleton.mp member]
  refine .mk (fun object => nomatch object) (fun item member => ?_)
  rw [List.mem_singleton.mp member]
  exact .mk (fun object => nomatch object) (fun _ impossible => nomatch impossible)

private theorem escapedName_addressable : escapedName.Addressable := by
  refine .mk (by decide) (fun item member => ?_)
  rw [List.mem_singleton.mp member]
  refine .mk (by decide) (fun item member => ?_)
  rw [List.mem_singleton.mp member]
  exact .mk (by decide) (fun _ impossible => nomatch impossible)

/-- The element of the array in `{"~/": [null]}`. -/
theorem findPointer_round_trip_escapedName :
    ∃ result, cjsonUtilsFindPointerFromObjectTo escapedName (some [0, 0]) = .ok result ∧
      (result.isSome = true ↔ ∃ path, some [0, 0] = some path ∧ escapedName.Exposes path) ∧
      ∀ pointer, result = some pointer ->
        cjsonUtilsGetPointerCaseSensitive escapedName pointer = some [0, 0] :=
  findPointer_round_trip escapedName (some [0, 0]) escapedName_distinctKeys escapedName_addressable

/-- Its pointer is `/~0~1/0`. -/
example : pointerTo escapedName [0, 0] = [slash, tilde, 48, tilde, 49, slash, 48] := rfl

end CJson
