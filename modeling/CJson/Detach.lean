import CJson.Links
import CJson.Rfc6901

/-!
# Detaching the node a pointer designates

`detach_path` of `utils.rs` cuts the pointer at its last `/`, follows the front
part to the parent, decodes the last token and looks the child up itself
instead of asking the walker.  For an object it does so with the
case-insensitive lookup, in both case modes.
-/

namespace CJson

open CString

/-- `case_insensitive_strcmp`. -/
def caseInsensitiveStrcmp : Option Bytes -> Option Bytes -> Int
  | some s1, some s2 => compareBy toAsciiLowercase s1 s2
  | _, _ => 1

/-- `get_object_item` of `manip.rs`, as a position.  The case-sensitive walk
stops at the first member without a name. -/
def getObjectItem (object : Item) (name : Bytes) (caseSensitive : Bool) : Option Nat :=
  let found :=
    if caseSensitive then
      object.child.findIdx? (fun member =>
        match member.string with
        | none => true
        | some string => compareBy id string name == 0)
    else object.child.findIdx? (fun member => caseInsensitiveStrcmp (some name) member.string == 0)
  found.filter (fun position => (object.child[position]?.bind Item.string).isSome)

/-- `cJSON_GetObjectItem`. -/
def cjsonGetObjectItem (object : Item) (string : Bytes) : Option Nat :=
  getObjectItem object string false

/-- `cJSON_GetObjectItemCaseSensitive`. -/
def cjsonGetObjectItemCaseSensitive (object : Item) (string : Bytes) : Option Nat :=
  getObjectItem object string true

/-- `cJSON_DetachItemFromObject`: the position, the member and the rest. -/
def cjsonDetachItemFromObject (object : Item) (string : Bytes) : Option (Nat × Item × Item) :=
  match cjsonGetObjectItem object string with
  | none => none
  | some toDetach => (cjsonDetachItemViaPointer object toDetach).map (toDetach, ·)

/-- `cJSON_DetachItemFromObjectCaseSensitive`. -/
def cjsonDetachItemFromObjectCaseSensitive (object : Item) (string : Bytes) :
    Option (Nat × Item × Item) :=
  match cjsonGetObjectItemCaseSensitive object string with
  | none => none
  | some toDetach => (cjsonDetachItemViaPointer object toDetach).map (toDetach, ·)

/-- `detach_item_from_array` of `utils.rs`. -/
def detachItemFromArray (array : Item) (which : Nat) : Option (Nat × Item × Item) :=
  (cjsonDetachItemViaPointer array which).map (which, ·)

/-- The loop of `decode_pointer_inplace`: `string` reads, `decoded` writes.
Bytes outside escapes are not moved, and the slash of a `~1` is written one
byte too far. -/
def decodePointerLoop : Nat -> Bytes -> Nat -> Nat -> Bytes
  | 0, block, _, _ => block
  | fuel + 1, block, string, decoded =>
      let byte := first (block.drop string)
      if byte = 0 then block.set decoded 0
      else if byte = tilde then
        if first (block.drop (string + 1)) = 48 then
          decodePointerLoop fuel (block.set decoded tilde) (string + 2) (decoded + 1)
        else if first (block.drop (string + 1)) = 49 then
          decodePointerLoop fuel (block.set (decoded + 1) slash) (string + 2) (decoded + 1)
        else block
      else decodePointerLoop fuel block (string + 1) (decoded + 1)

/-- `decode_pointer_inplace`: the block after the call.  The cursor moves on in
every turn, so the length of the block bounds the turns. -/
def decodePointerInplace (string : Bytes) : Bytes :=
  decodePointerLoop (string.length + 1) string 0 0

/-- Cut a copied pointer at its last `/`, as `strrchr` finds it: the texts
before and behind. -/
def splitPointer : Bytes -> Option (Bytes × Bytes)
  | [] => none
  | byte :: rest =>
      if byte = 0 then none
      else
        match splitPointer rest with
        | some (front, back) => some (byte :: front, back)
        | none => if byte = slash then some ([], rest) else none

/-- `cJSONUtils_strdup`: a copy ends at the terminator. -/
def cjsonUtilsStrdup (string : Bytes) : Bytes := text string

/-- `detach_path`: the place of the detached node, the node, and the document
without it. -/
def detachPath (object : Item) (path : Bytes) (caseSensitive : Bool) :
    Option (Item.Path × Item × Item) :=
  match splitPointer (cjsonUtilsStrdup path) with
  | none => none
  | some (parentPointer, childPointer) =>
      match getItemFromPointer object parentPointer caseSensitive with
      | none => none
      | some parentPath =>
          match object.at? parentPath with
          | none => none
          | some parent =>
              let childPointer := decodePointerInplace childPointer
              let detachedItem :=
                if parent.isArray then
                  match decodeArrayIndexFromPointer childPointer with
                  | none => none
                  | some index => detachItemFromArray parent index
                else if parent.isObject then cjsonDetachItemFromObject parent childPointer
                else none
              match detachedItem with
              | none => none
              | some (position, item, remaining) =>
                  (object.modify (fun _ => some remaining) parentPath).map
                    (fun object => (parentPath ++ [position], item, object))

/-! ## Splitting and decoding -/

/-- Cutting at the last `/` undoes putting a token behind a pointer. -/
theorem splitPointer_append (front : Bytes) {back : Bytes} (frontFree : (0 : UInt8) ∉ front)
    (oneToken : slash ∉ back) :
    splitPointer (front ++ slash :: back) = some (front, back) := by
  have noSlash : ∀ {block : Bytes}, slash ∉ block -> splitPointer block = none := by
    intro block absent
    induction block with
    | nil => rfl
    | cons byte rest ih =>
        have different : byte ≠ slash := fun same => absent (same ▸ List.mem_cons_self)
        rw [splitPointer, ih (fun member => absent (List.mem_cons_of_mem _ member))]
        by_cases zero : byte = 0 <;> simp [zero, different]
  induction front with
  | nil => simp [splitPointer, noSlash oneToken, slash_ne_zero]
  | cons byte front ih =>
      have nonzero : byte ≠ 0 := fun zero => frontFree (zero ▸ List.mem_cons_self)
      rw [List.cons_append, splitPointer, if_neg nonzero,
        ih (fun member => frontFree (List.mem_cons_of_mem _ member))]

/-- Without a `~` there is nothing to decode. -/
theorem decodePointerInplace_eq_self {string : Bytes} (free : (0 : UInt8) ∉ string)
    (noEscape : tilde ∉ string) : decodePointerInplace string = string := by
  have loop : ∀ fuel position, decodePointerLoop fuel string position position = string := by
    intro fuel
    induction fuel with
    | zero => exact fun _ => rfl
    | succ fuel ih =>
        intro position
        rw [decodePointerLoop]
        cases rest : string.drop position with
        | nil =>
            rw [first_nil, if_pos rfl, List.set_eq_of_length_le]
            exact List.drop_eq_nil_iff.mp rest
        | cons byte tail =>
            have member : byte ∈ string := List.mem_of_mem_drop (rest ▸ List.mem_cons_self)
            have nonzero : byte ≠ 0 := fun zero => free (zero ▸ member)
            have plain : byte ≠ tilde := fun escape => noEscape (escape ▸ member)
            simp only [first_cons, nonzero, plain, if_false]
            exact ih (position + 1)
  exact loop _ 0

/-! ## The walker on a pointer with one more token -/

theorem token_append_slash (front back : Bytes) :
    token (front ++ slash :: back) = token front := by
  induction front with
  | nil => simp [token_cons, token_nil]
  | cons byte front ih =>
      rw [List.cons_append, token_cons, token_cons, ih]

theorem token_eq_self {pointer : Bytes} (free : (0 : UInt8) ∉ pointer) (oneToken : slash ∉ pointer) :
    token pointer = pointer := by
  induction pointer with
  | nil => rfl
  | cons byte rest ih =>
      have inside : ¬ (byte = 0 ∨ byte = slash) := by
        rintro (zero | separator)
        · exact free (zero ▸ List.mem_cons_self)
        · exact oneToken (separator ▸ List.mem_cons_self)
      rw [token_cons, if_neg inside, ih (fun member => free (List.mem_cons_of_mem _ member))
        (fun member => oneToken (List.mem_cons_of_mem _ member))]

theorem token_text (pointer : Bytes) : token (text pointer) = token pointer := by
  induction pointer with
  | nil => rfl
  | cons byte rest ih =>
      rw [text_cons, token_cons]
      by_cases zero : byte = 0
      · rw [if_pos zero, if_pos (Or.inl zero), token_nil]
      · rw [if_neg zero, token_cons, ih]

/-- A turn of the walker reads the pointer no further than the token. -/
theorem selectChild_congr {caseSensitive : Bool} {item : Item} {left right : Bytes}
    (same : token left = token right) :
    selectChild caseSensitive item left = selectChild caseSensitive item right := by
  have index : decodeArrayIndexFromPointer left = decodeArrayIndexFromPointer right := by
    apply Option.ext
    intro index
    rw [decodeArrayIndexFromPointer_iff, decodeArrayIndexFromPointer_iff, same]
  have name : ∀ string, comparePointers string left caseSensitive =
      comparePointers string right caseSensitive := by
    intro string
    cases string with
    | none => rfl
    | some string =>
        apply Bool.eq_iff_iff.mpr
        rw [comparePointers, comparePointers, comparePointersLoop_iff, comparePointersLoop_iff, same]
  simp only [selectChild, index, name]

/-- The walker ends at a node of the document. -/
theorem followPointer_at {caseSensitive : Bool} {pointer : Bytes} {item : Item} {path : Item.Path}
    (walked : followPointer caseSensitive pointer item = some path) (distinct : item.DistinctKeys) :
    ∃ node, item.at? path = some node ∧ node.DistinctKeys := by
  induction pointer generalizing item path with
  | nil =>
      cases walked
      exact ⟨item, rfl, distinct⟩
  | cons byte rest ih =>
      rw [followPointer] at walked
      split at walked
      · cases walked
        exact ⟨item, rfl, distinct⟩
      · split at walked
        · cases selected : selectChild caseSensitive item rest with
          | none => simp [selected] at walked
          | some position =>
              cases child : item.child[position]? with
              | none => simp [selected, child] at walked
              | some next =>
                  simp only [selected, child] at walked
                  obtain ⟨below, walkedBelow, rfl⟩ := Option.map_eq_some_iff.mp walked
                  obtain ⟨node, found, nodeDistinct⟩ :=
                    ih walkedBelow (distinct.child (List.mem_of_getElem? child))
                  exact ⟨node, by simp only [Item.at?, child, found], nodeDistinct⟩
        · exact ih walked distinct

/-- The walk along a pointer is the walk along its front part and one more
turn at the node found there. -/
theorem followPointer_append {caseSensitive : Bool} (front : Bytes) {back : Bytes} (item : Item)
    (frontFree : (0 : UInt8) ∉ front) (backFree : (0 : UInt8) ∉ back) (oneToken : slash ∉ back) :
    followPointer caseSensitive (front ++ slash :: back) item =
      (followPointer caseSensitive front item).bind fun path =>
        (item.at? path).bind fun parent =>
          (selectChild caseSensitive parent back).bind fun position =>
            (parent.child[position]?).map fun _ => path ++ [position] := by
  have skip : ∀ {back : Bytes} (item : Item), (0 : UInt8) ∉ back -> slash ∉ back ->
      followPointer caseSensitive back item = some [] := by
    intro back item free oneToken
    induction back with
    | nil => rfl
    | cons byte rest ih =>
        rw [followPointer]
        by_cases zero : byte = 0
        · rw [if_pos zero]
        · have inside : byte ≠ slash := fun same => oneToken (same ▸ List.mem_cons_self)
          rw [if_neg zero, if_neg inside]
          exact ih (fun member => free (List.mem_cons_of_mem _ member))
            (fun member => oneToken (List.mem_cons_of_mem _ member))
  induction front generalizing item with
  | nil =>
      rw [List.nil_append]
      simp only [followPointer, slash_ne_zero, if_false, if_true, Option.bind_some, Item.at?]
      cases selected : selectChild caseSensitive item back with
      | none => rfl
      | some position =>
          cases child : item.child[position]? with
          | none => simp [child]
          | some next => simp [child, skip next backFree oneToken]
  | cons byte front ih =>
      have nonzero : byte ≠ 0 := fun zero => frontFree (zero ▸ List.mem_cons_self)
      have restFree : (0 : UInt8) ∉ front := fun member => frontFree (List.mem_cons_of_mem _ member)
      rw [List.cons_append, followPointer, followPointer, if_neg nonzero, if_neg nonzero]
      by_cases separator : byte = slash
      · rw [if_pos separator, if_pos separator, selectChild_congr (token_append_slash front back)]
        cases selected : selectChild caseSensitive item front with
        | none => rfl
        | some position =>
            cases child : item.child[position]? with
            | none => simp [child]
            | some next =>
                simp only [child]
                rw [ih next restFree]
                cases walked : followPointer caseSensitive front next with
                | none => rfl
                | some path =>
                    simp only [Option.map_some, Option.bind_some, Item.at?, child]
                    cases next.at? path with
                    | none => rfl
                    | some parent =>
                        simp only [Option.bind_some]
                        cases selectChild caseSensitive parent back with
                        | none => rfl
                        | some last =>
                            cases found : parent.child[last]? with
                            | none => simp [found]
                            | some _ => simp [found]
      · rw [if_neg separator, if_neg separator]
        exact ih item restFree

/-! ## Which child `detach_path` takes -/

/-- In this object a member whose name differs from `name` only in case stands before
the member of that very name, or there is no member of that very name.  A lookup that
ignores case then comes to the wrong member, or to one where there is none. -/
def ShadowedByCase (parent : Item) (name : Bytes) : Prop :=
  ∃ (position : Nat) (member : Item), parent.child[position]? = some member ∧
    SameName false member.key name ∧ member.key ≠ name ∧
      ∀ (earlier : Nat) (other : Item), earlier < position ->
        parent.child[earlier]? = some other -> other.key ≠ name

/-- The two searches through a member list agree exactly when no member is
shadowed: the first name equal up to case is the first equal name. -/
theorem findIdx_agree {parent : Item} {name : Bytes}
    (loose exact : Item -> Bool)
    (loose_iff : ∀ member ∈ parent.child, loose member = true ↔ SameName false member.key name)
    (exact_iff : ∀ member ∈ parent.child, exact member = true ↔ member.key = name) :
    parent.child.findIdx? loose = parent.child.findIdx? exact ↔ ¬ ShadowedByCase parent name := by
  have implies : ∀ member ∈ parent.child, exact member = true -> loose member = true := by
    intro member inside hit
    rw [loose_iff member inside, (exact_iff member inside).mp hit]
    rfl
  constructor
  · rintro agree ⟨position, member, child, same, different, before⟩
    obtain ⟨bound, memberEq⟩ := List.getElem?_eq_some_iff.mp child
    have inside : member ∈ parent.child := List.mem_of_getElem? child
    have looseHit : loose parent.child[position] = true := by
      rw [memberEq]
      exact (loose_iff member inside).mpr same
    cases found : parent.child.findIdx? loose with
    | none =>
        rw [List.findIdx?_eq_none_iff] at found
        have := found _ (memberEq ▸ inside)
        rw [looseHit] at this
        cases this
    | some index =>
        rw [found] at agree
        obtain ⟨indexBound, _, looseBefore⟩ := List.findIdx?_eq_some_iff_getElem.mp found
        obtain ⟨_, exactHit, _⟩ := List.findIdx?_eq_some_iff_getElem.mp agree.symm
        have indexKey := (exact_iff _ (List.getElem_mem indexBound)).mp exactHit
        rcases Nat.lt_trichotomy index position with less | equal | greater
        · exact before index _ less (List.getElem?_eq_getElem indexBound) indexKey
        · subst equal
          rw [memberEq] at indexKey
          exact different indexKey
        · exact absurd looseHit (looseBefore position greater)
  · intro clean
    cases found : parent.child.findIdx? loose with
    | none =>
        rw [List.findIdx?_eq_none_iff] at found
        refine (List.findIdx?_eq_none_iff.mpr fun member inside => ?_).symm
        by_contra hit
        have looseHit := implies member inside (by simpa using hit)
        rw [found member inside] at looseHit
        cases looseHit
    | some index =>
        obtain ⟨bound, looseHit, looseBefore⟩ := List.findIdx?_eq_some_iff_getElem.mp found
        have exactBefore : ∀ earlier (before : earlier < index),
            ¬ exact (parent.child.get ⟨earlier, lt_trans before bound⟩) = true :=
          fun earlier before hit => looseBefore earlier before (implies _ (List.get_mem _ _) hit)
        refine (List.findIdx?_eq_some_iff_getElem.mpr ⟨bound, ?_, exactBefore⟩).symm
        rw [exact_iff _ (List.getElem_mem bound)]
        by_contra different
        refine clean ⟨index, parent.child[index], List.getElem?_eq_getElem bound,
          (loose_iff _ (List.getElem_mem bound)).mp looseHit, different, ?_⟩
        intro earlier other before child equal
        obtain ⟨otherBound, rfl⟩ := List.getElem?_eq_some_iff.mp child
        exact exactBefore earlier before ((exact_iff _ (List.getElem_mem otherBound)).mpr equal)

private theorem nat_eq_iff_map_toNat (fold : UInt8 -> UInt8) (left right : Bytes) :
    left.map (fun byte => (fold byte).toNat) = right.map (fun byte => (fold byte).toNat) ↔
      left.map fold = right.map fold := by
  have split : ∀ block : Bytes, block.map (fun byte => (fold byte).toNat) =
      (block.map fold).map UInt8.toNat := fun block => by rw [List.map_map]; rfl
  rw [split, split]
  exact (List.map_injective_iff.mpr fun _ _ => UInt8.toNat_inj.mp).eq_iff

/-- The comparisons of C strings decide equality of names. -/
theorem compareBy_caseFold_eq_zero (caseSensitive : Bool) (left right : Bytes) :
    compareBy (caseFold caseSensitive) left right = 0 ↔
      SameName caseSensitive (text left) (text right) := by
  rw [(compareBy_spec (keepsTerminator_caseFold caseSensitive) left right).2]
  exact nat_eq_iff_map_toNat _ _ _

/-- The case-insensitive lookup, as a search by name.  The test that it makes is that
of equal names without regard to case, for members that have a name. -/
theorem cjsonGetObjectItem_eq {object : Item} {name : Bytes} (free : (0 : UInt8) ∉ name)
    (present : ∀ member ∈ object.child, member.string.isSome) :
    ∃ loose : Item -> Bool, cjsonGetObjectItem object name = object.child.findIdx? loose ∧
      ∀ member ∈ object.child, loose member = true ↔ SameName false member.key name := by
  refine ⟨fun member => caseInsensitiveStrcmp (some name) member.string == 0, ?_, ?_⟩
  · rw [cjsonGetObjectItem, getObjectItem]
    simp only [Bool.false_eq_true, if_false]
    cases found : object.child.findIdx?
        (fun member => caseInsensitiveStrcmp (some name) member.string == 0) with
    | none => rfl
    | some position =>
        obtain ⟨bound, _, _⟩ := List.findIdx?_eq_some_iff_getElem.mp found
        have named := present _ (List.getElem_mem bound)
        rw [Option.filter_some, List.getElem?_eq_getElem bound, Option.bind_some, if_pos named]
  · intro member inside
    obtain ⟨string, stored⟩ := Option.isSome_iff_exists.mp (present member inside)
    have key : member.key = text string := by rw [Item.key, stored, Option.getD_some]
    simp only [stored, caseInsensitiveStrcmp, beq_iff_eq, key]
    rw [show compareBy toAsciiLowercase name string = compareBy (caseFold false) name string from rfl,
      compareBy_caseFold_eq_zero, text_eq_self free]
    exact eq_comm

/-- The walker's member search for a token without escapes, as a search by
name. -/
theorem comparePointers_key_iff {caseSensitive : Bool} {name : Bytes} (free : (0 : UInt8) ∉ name)
    (oneToken : slash ∉ name) (noEscape : tilde ∉ name) {member : Item}
    (present : member.string.isSome) :
    comparePointers member.string name caseSensitive = true ↔
      SameName caseSensitive member.key name := by
  have plain : ∀ {block : Bytes}, tilde ∉ block -> unescape block = some block := by
    intro block absent
    induction block with
    | nil => rfl
    | cons byte rest ih =>
        rw [unescape_plain (fun same => absent (same ▸ List.mem_cons_self)),
          ih (fun inside => absent (List.mem_cons_of_mem _ inside))]
        rfl
  obtain ⟨string, stored⟩ := Option.isSome_iff_exists.mp present
  have key : member.key = text string := by rw [Item.key, stored, Option.getD_some]
  rw [stored, comparePointers, comparePointersLoop_iff, token_eq_self free oneToken, plain noEscape,
    key]
  simp

theorem findIdx?_congr {items : List Item} {left right : Item -> Bool}
    (same : ∀ item ∈ items, left item = right item) :
    items.findIdx? left = items.findIdx? right := by
  induction items with
  | nil => rfl
  | cons item items ih =>
      rw [List.findIdx?_cons, List.findIdx?_cons, same item List.mem_cons_self,
        ih (fun other member => same other (List.mem_cons_of_mem _ member))]

/-- A selected position is the position of a child. -/
theorem selectChild_bind {caseSensitive : Bool} {parent : Item} {pointer : Bytes}
    {place : Nat -> Item.Path} :
    ((selectChild caseSensitive parent pointer).bind fun position =>
        (parent.child[position]?).map fun _ => place position) =
      (selectChild caseSensitive parent pointer).map place := by
  have inside : ∀ position, selectChild caseSensitive parent pointer = some position ->
      position < parent.child.length := by
    intro position selected
    rw [selectChild] at selected
    split at selected
    · split at selected
      · cases selected
      · rw [getArrayItem] at selected
        split at selected
        · cases selected
          assumption
        · cases selected
    · split at selected
      · exact (List.findIdx?_eq_some_iff_getElem.mp selected).1
      · cases selected
  cases selected : selectChild caseSensitive parent pointer with
  | none => rfl
  | some position => simp [inside position selected]

/-- The place of the node `detach_path` takes, before it is spliced out: where the
front of the pointer leads, and then by index in an array and by the lookup without
regard to case in an object. -/
private theorem detachPath_place {object parent : Item} {front back : Bytes} {caseSensitive : Bool}
    {parentPath : Item.Path} (frontFree : (0 : UInt8) ∉ front) (backFree : (0 : UInt8) ∉ back)
    (oneToken : slash ∉ back) (noEscape : tilde ∉ back)
    (walked : getItemFromPointer object front caseSensitive = some parentPath)
    (found : object.at? parentPath = some parent) :
    (detachPath object (front ++ slash :: back) caseSensitive).map (·.1) =
      (if parent.isArray then selectChild caseSensitive parent back
        else if parent.isObject then cjsonGetObjectItem parent back else none).map
          (fun position => parentPath ++ [position]) := by
  have free : (0 : UInt8) ∉ front ++ slash :: back := by
    simp [frontFree, backFree, slash_ne_zero.symm]
  have taken : ∀ {position : Nat} {item remaining : Item},
      cjsonDetachItemViaPointer parent position = some (item, remaining) ->
      (object.modify (fun _ => some remaining) parentPath).isSome = true := fun _ =>
    Item.modify_isSome found rfl
  simp only [detachPath, cjsonUtilsStrdup, text_eq_self free,
    splitPointer_append front frontFree oneToken, walked, found,
    decodePointerInplace_eq_self backFree noEscape]
  by_cases array : parent.isArray = true
  · simp only [array, if_true, selectChild]
    cases decodeArrayIndexFromPointer back with
    | none => rfl
    | some index =>
        simp only [detachItemFromArray, getArrayItem]
        by_cases bound : index < parent.child.length
        · obtain ⟨remaining, detached⟩ :=
            cjsonDetachItemViaPointer_eq_some (List.getElem?_eq_getElem bound)
          obtain ⟨rest, restEq⟩ := Option.isSome_iff_exists.mp (taken detached)
          simp [detached, bound, restEq]
        · simp [cjsonDetachItemViaPointer, bound]
  · by_cases isObject : parent.isObject = true
    · simp only [array, isObject, Bool.false_eq_true, if_false, if_true, cjsonDetachItemFromObject]
      cases lookup : cjsonGetObjectItem parent back with
      | none => rfl
      | some position =>
          have bound : position < parent.child.length := by
            rw [cjsonGetObjectItem, getObjectItem] at lookup
            have inside := (Option.filter_eq_some_iff.mp lookup).1
            simp only [Bool.false_eq_true, if_false] at inside
            exact (List.findIdx?_eq_some_iff_getElem.mp inside).1
          obtain ⟨remaining, detached⟩ :=
            cjsonDetachItemViaPointer_eq_some (List.getElem?_eq_getElem bound)
          obtain ⟨rest, restEq⟩ := Option.isSome_iff_exists.mp (taken detached)
          simp [detached, restEq]
    · simp [array, isObject]

/-- `remove`, `replace` and `move` detach through `detach_path`.  For a pointer
that starts with `/` and whose last token has no escape, it takes the very node
that the walker returns, or none when the walker returns none, if and only if
the mode is case insensitive or no object at the parent pointer has a member
shadowing the last token by case. -/
theorem detachPath_exact_iff (object : Item) (front back : Bytes) (caseSensitive : Bool)
    (distinct : object.DistinctKeys) (addressable : object.Addressable)
    (free : (0 : UInt8) ∉ front ++ slash :: back) (start : front = [] ∨ first front = slash)
    (oneToken : slash ∉ back) (noEscape : tilde ∉ back) :
    (detachPath object (front ++ slash :: back) caseSensitive).map (·.1) =
        getItemFromPointer object (front ++ slash :: back) caseSensitive ↔
      (caseSensitive = true -> ∀ slipped parentPath parent,
        LooselyDesignates object (tokens front) slipped parentPath ->
          object.at? parentPath = some parent -> parent.isObject = true ->
            ¬ ShadowedByCase parent back) := by
  have frontFree : (0 : UInt8) ∉ front := fun member => free (List.mem_append_left _ member)
  have backFree : (0 : UInt8) ∉ back :=
    fun member => free (List.mem_append_right _ (List.mem_cons_of_mem _ member))
  have frontWalk : getItemFromPointer object front caseSensitive =
      followPointer caseSensitive front object := by
    rcases start with rfl | leading
    · rfl
    · rw [getItemFromPointer, if_pos leading]
  have wholeWalk : getItemFromPointer object (front ++ slash :: back) caseSensitive =
      followPointer caseSensitive (front ++ slash :: back) object := by
    have leading : first (front ++ slash :: back) = slash := by
      rcases start with rfl | leading
      · rfl
      · cases front with
        | nil => rfl
        | cons byte front => exact leading
    rw [getItemFromPointer, if_pos leading]
  rw [wholeWalk, followPointer_append front object frontFree backFree oneToken]
  cases walked : followPointer caseSensitive front object with
  | none =>
      have lost : detachPath object (front ++ slash :: back) caseSensitive = none := by
        simp only [detachPath, cjsonUtilsStrdup, text_eq_self free,
          splitPointer_append front frontFree oneToken, frontWalk, walked]
      rw [lost]
      refine iff_of_true rfl ?_
      rintro rfl slipped parentPath parent designated _ _ _
      rw [(followPointer_iff front distinct addressable parentPath).mpr ⟨slipped, designated⟩] at walked
      cases walked
  | some parentPath =>
      have parentNode : ∃ parent, object.at? parentPath = some parent ∧ parent.DistinctKeys :=
        followPointer_at walked distinct
      obtain ⟨parent, found, parentDistinct⟩ := parentNode
      rw [detachPath_place frontFree backFree oneToken noEscape (frontWalk.trans walked) found]
      simp only [Option.bind_some, found]
      rw [selectChild_bind, Option.map_inj_right (fun _ _ same => by simpa using same)]
      have condition : (caseSensitive = true -> ∀ slipped parentPath' parent',
          LooselyDesignates object (tokens front) slipped parentPath' ->
            object.at? parentPath' = some parent' -> parent'.isObject = true ->
              ¬ ShadowedByCase parent' back) ↔
          (caseSensitive = true -> parent.isObject = true -> ¬ ShadowedByCase parent back) := by
        refine imp_congr_right ?_
        rintro rfl
        obtain ⟨slipped, designated⟩ := (followPointer_iff front distinct addressable _).mp walked
        constructor
        · exact fun clean => clean slipped parentPath parent designated found
        · intro clean otherSlipped otherPath other otherDesignated otherFound
          have same := (followPointer_iff front distinct addressable _).mpr
            ⟨otherSlipped, otherDesignated⟩
          rw [walked] at same
          cases same
          rw [found] at otherFound
          cases otherFound
          exact clean
      rw [condition]
      by_cases array : parent.isArray = true
      · rw [if_pos array]
        exact iff_of_true rfl fun _ isObject => absurd isObject (not_isObject_of_isArray array)
      rw [if_neg array]
      by_cases isObject : parent.isObject = true
      · rw [if_pos isObject, selectChild, if_neg array, if_pos isObject]
        have present := (parentDistinct.names isObject).1
        obtain ⟨loose, lookup, loose_iff⟩ := cjsonGetObjectItem_eq backFree present
        rw [lookup]
        have token_iff := fun member (inside : member ∈ parent.child) =>
          @comparePointers_key_iff caseSensitive back backFree oneToken noEscape member
            (present member inside)
        cases caseSensitive with
        | true =>
            simp only [sameName_true] at token_iff
            rw [findIdx_agree loose _ loose_iff token_iff]
            simp [isObject]
        | false =>
            refine iff_of_true ?_ (fun impossible => by cases impossible)
            exact findIdx?_congr fun member inside => by
              apply Bool.eq_iff_iff.mpr
              rw [loose_iff member inside, token_iff member inside]
      · rw [if_neg isObject, selectChild, if_neg array, if_neg isObject]
        exact iff_of_true rfl fun _ impossible => absurd impossible isObject

/-- The document `{"A": null, "a": null}`. -/
def caseVariants : Item :=
  .mk { type_ := { base := .object } }
    [.mk { type_ := { base := .null }, string := some [65] } [] .null,
      .mk { type_ := { base := .null }, string := some [97] } [] .null] (.at 1)

theorem caseVariants_distinctKeys : caseVariants.DistinctKeys := by
  refine .mk (fun _ => ⟨by decide, by decide⟩) (fun item member => ?_)
  rcases List.mem_cons.mp member with rfl | later
  · exact .mk (fun object => by cases object) (fun _ impossible => by cases impossible)
  · rw [List.mem_singleton.mp later]
    exact .mk (fun object => by cases object) (fun _ impossible => by cases impossible)

private theorem caseVariants_addressable : caseVariants.Addressable := by
  refine .mk (by decide) (fun item member => ?_)
  rcases List.mem_cons.mp member with rfl | later
  · exact .mk (by decide) (fun _ impossible => by cases impossible)
  · rw [List.mem_singleton.mp later]
    exact .mk (by decide) (fun _ impossible => by cases impossible)

/-- The pointer `/A` into `{"A": null, "a": null}`. -/
theorem detachPath_exact_iff_caseVariants :
    (detachPath caseVariants ([] ++ slash :: [65]) true).map (·.1) =
        getItemFromPointer caseVariants ([] ++ slash :: [65]) true ↔
      (true = true -> ∀ slipped parentPath parent,
        LooselyDesignates caseVariants (tokens []) slipped parentPath ->
          caseVariants.at? parentPath = some parent -> parent.isObject = true ->
            ¬ ShadowedByCase parent [65]) :=
  detachPath_exact_iff caseVariants [] [65] true caseVariants_distinctKeys
    caseVariants_addressable (by decide) (Or.inl rfl) (by decide) (by decide)

/-- With the case-sensitive pointer `/a` the walker designates the second
member of `{"A": null, "a": null}` and `detach_path` takes out the first. -/
theorem detachPath_takes_case_variant :
    caseVariants.DistinctKeys ∧ caseVariants.WellLinked ∧
      getItemFromPointer caseVariants [slash, 97] true = some [1] ∧
        (detachPath caseVariants [slash, 97] true).map (·.1) = some [0] ∧
          (detachPath caseVariants [slash, 97] true).map (·.1) ≠
            getItemFromPointer caseVariants [slash, 97] true := by
  refine ⟨caseVariants_distinctKeys, ?_, rfl, rfl, fun same => by cases same⟩
  refine .mk (fun _ => rfl) (fun item member => ?_)
  rcases List.mem_cons.mp member with rfl | later
  · exact .mk (fun nonempty => absurd rfl nonempty) (fun _ impossible => by cases impossible)
  · rw [List.mem_singleton.mp later]
    exact .mk (fun nonempty => absurd rfl nonempty) (fun _ impossible => by cases impossible)

end CJson
