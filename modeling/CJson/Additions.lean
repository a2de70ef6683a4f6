import CJson.Library.JsonPatch
import CJson.Rewrites

/-!
# Adding and copying by a patch

With regard to case, and as long as no token of a path has an escape in it, the
`add` and `copy` operations do what RFC 6902 says.
-/

namespace CJson

open CString Item

/-! ## Tokens -/

/-- The token for the place behind the last element. -/
def dash : Bytes := [45]

/-- A token read as an array index. -/
def arrayIndex? (token : Bytes) : Option Nat :=
  if IsCanonicalIndex token then some (decimalValue token) else none

/-- The pointer of these tokens, without its terminator. -/
def tokensText (tokens : List Bytes) : Bytes := tokens.flatMap fun token => slash :: token

/-- A token that is written as it is read.  It has none of the bytes that mean
something in a pointer: no separator, no `~` that begins an escape, and no
terminator.  The decoder of patch paths has nothing to do on it. -/
structure PlainToken (token : Bytes) : Prop where
  zero : (0 : UInt8) ∉ token
  slash : slash ∉ token
  tilde : tilde ∉ token

/-- A token that names an array element, as far as a `usize` can.  Longer digit
strings are indices too as far as RFC 6901 is concerned, but the code computes modulo
the width of its counter and comes to another element. -/
def ReadsIndex (token : Bytes) : Prop := IsCanonicalIndex token ∧ decimalValue token < usizeBound

/-- Where a path goes through an array, its token is an index; the last one may also
be the one for the place behind the last element.  Through objects it may go by any
token, and a token that leads nowhere ends the condition there. -/
def ReadsIndices : Json Bytes Scalar -> List Bytes -> Prop
  | _, [] => True
  | value, token :: rest =>
      ((∃ elements, value = .array elements) -> ReadsIndex token ∨ token = dash ∧ rest = []) ∧
        ∀ next, value.next? arrayIndex? token = some next -> ReadsIndices next rest

theorem tokensText_cons (token : Bytes) (tokens : List Bytes) :
    tokensText (token :: tokens) = slash :: (token ++ tokensText tokens) := rfl

theorem tokensText_concat (front : List Bytes) (last : Bytes) :
    tokensText (front ++ [last]) = tokensText front ++ slash :: last := by
  rw [tokensText, List.flatMap_append]
  simp [tokensText]

theorem zero_not_mem_tokensText {tokens : List Bytes} (plain : ∀ token ∈ tokens, PlainToken token) :
    (0 : UInt8) ∉ tokensText tokens := by
  intro inside
  rcases List.mem_flatMap.mp inside with ⟨token, member, inside⟩
  rcases List.mem_cons.mp inside with impossible | inside
  · exact slash_ne_zero impossible.symm
  · exact (plain token member).zero inside

theorem decodeArrayIndexFromPointer_token {token : Bytes} (plain : PlainToken token)
    (reads : ReadsIndex token ∨ token = dash) :
    decodeArrayIndexFromPointer token = arrayIndex? token := by
  rcases reads with ⟨canonical, small⟩ | rfl
  · rw [arrayIndex?, if_pos canonical, decodeArrayIndexFromPointer_iff, token_eq_self plain.zero plain.slash]
    exact ⟨canonical.2.1, canonical.2.2, (Nat.mod_eq_of_lt small).symm⟩
  · decide

theorem ReadsIndices.front {value : Json Bytes Scalar} {front : List Bytes} {last : Bytes}
    (reads : ReadsIndices value (front ++ [last])) : ReadsIndices value front := by
  induction front generalizing value with
  | nil => trivial
  | cons token front ih =>
      rw [List.cons_append, ReadsIndices] at reads
      refine ⟨fun array => ?_, fun next there => ih (reads.2 next there)⟩
      rcases reads.1 array with index | ⟨_, impossible⟩
      · exact Or.inl index
      · exact absurd impossible (List.append_ne_nil_of_right_ne_nil _ (List.cons_ne_nil _ _))

theorem ReadsIndices.last {value parent : Json Bytes Scalar} {front : List Bytes} {last : Bytes}
    (reads : ReadsIndices value (front ++ [last])) (found : value.get? arrayIndex? front = some parent)
    (array : ∃ elements, parent = .array elements) : ReadsIndex last ∨ last = dash := by
  induction front generalizing value with
  | nil =>
      cases found
      exact (reads.1 array).imp_right And.left
  | cons token front ih =>
      rw [Json.get?] at found
      rcases Option.bind_eq_some_iff.mp found with ⟨next, there, found⟩
      exact ih (reads.2 next there) found

/-! ## The walk -/

/-- A turn of the walker with a plain token: it stops where the value has nothing
behind the token, and otherwise it goes to the child that the value has there.
Exchanging that child exchanges the value behind the token, which is what a patch
below it needs. -/
theorem selectChild_token {item : Item} {token : Bytes} (wellFormed : item.WellFormed true)
    (plain : PlainToken token) (reads : item.isArray = true -> ReadsIndex token ∨ token = dash) :
    (selectChild true item token = none ∧ (item.json true).next? arrayIndex? token = none) ∨
      ∃ position next, selectChild true item token = some position ∧
        item.child[position]? = some next ∧
        (item.json true).next? arrayIndex? token = some (next.json true) ∧
        ∀ new, new.fields = next.fields ->
          (item.withChildren (item.child.set position new) item.headPrev).json true =
            (item.json true).exchange arrayIndex? token (new.json true) := by
  by_cases array : item.isArray = true
  · rw [selectChild, if_pos array, decodeArrayIndexFromPointer_token plain (reads array), json_array array,
      Json.next?]
    cases read : arrayIndex? token with
    | none => exact Or.inl ⟨rfl, rfl⟩
    | some index =>
        rw [Option.bind_some, List.getElem?_map]
        simp only [getArrayItem]
        by_cases inside : index < item.child.length
        · right
          refine ⟨index, item.child[index], if_pos inside, List.getElem?_eq_getElem inside, ?_, ?_⟩
          · rw [List.getElem?_eq_getElem inside, Option.map_some]
          · intro new _
            rw [@json_array _ (item.withChildren _ _) array, withChildren_child, List.map_set, Json.exchange,
              read]
        · left
          rw [if_neg inside, List.getElem?_eq_none (not_lt.mp inside), Option.map_none]
          exact ⟨rfl, rfl⟩
  · by_cases object : item.isObject = true
    · have distinct := wellFormed.distinct.names object
      have folded : foldName true token = token := by
        rw [foldName, text_eq_self plain.zero]
        exact List.map_id token
      have hits : ∀ member ∈ item.child, comparePointers member.string token true =
          decide (member.nameIn true = token) := by
        intro member inside
        have compared := @comparePointers_escape_iff true token plain.zero member (distinct.1 member inside)
        rw [escape_eq_self plain.slash plain.tilde, folded] at compared
        rw [Bool.eq_iff_iff, compared, decide_eq_true_iff]
      rw [selectChild, if_neg array, if_pos object, json_object object, Json.next?, findIdx?_congr hits]
      cases search : item.child.findIdx? fun member => decide (member.nameIn true = token) with
      | none =>
          left
          refine ⟨rfl, jsonMembers_eq_none_iff.mpr fun inside => ?_⟩
          rcases List.mem_map.mp inside with ⟨member, there, named⟩
          exact of_decide_eq_false (List.findIdx?_eq_none_iff.mp search member there) named
      | some position =>
          right
          rcases List.findIdx?_eq_some_iff_getElem.mp search with ⟨inside, hit, _⟩
          have named := of_decide_eq_true hit
          have there := List.getElem?_eq_getElem inside
          refine ⟨position, _, rfl, there, ?_, fun new same => ?_⟩
          · rw [← named]
            exact jsonMembers_of_mem distinct.2 (List.getElem_mem inside)
          · have sameName : new.nameIn true = (item.child[position]).nameIn true := by
              rw [nameIn, nameIn, key, key, Item.string, Item.string, same]
            rw [@json_object _ (item.withChildren _ _) object, withChildren_child,
              jsonMembers_set distinct.2 there sameName, Json.exchange, named]
    · left
      rw [selectChild, if_neg array, if_neg object]
      refine ⟨rfl, ?_⟩
      cases read : item.json true with
      | null => rfl
      | scalar value => rfl
      | array elements => exact absurd (json_isArray_iff.mp ⟨elements, read⟩) array
      | object members => exact absurd (json_isObject_iff.mp ⟨members, read⟩) object

/-- The walker passes over the bytes of a token. -/
theorem followPointer_skip {caseSensitive : Bool} {token : Bytes} (rest : Bytes) (item : Item)
    (free : (0 : UInt8) ∉ token) (oneToken : slash ∉ token) :
    followPointer caseSensitive (token ++ rest) item = followPointer caseSensitive rest item := by
  induction token with
  | nil => rfl
  | cons byte token ih =>
      have nonzero : byte ≠ 0 := fun same => free (same ▸ List.mem_cons_self)
      have inside : byte ≠ slash := fun same => oneToken (same ▸ List.mem_cons_self)
      rw [List.cons_append, followPointer, if_neg nonzero, if_neg inside]
      exact ih (fun member => free (List.mem_cons_of_mem _ member))
        (fun member => oneToken (List.mem_cons_of_mem _ member))

theorem token_append_tokensText (front : Bytes) (tokens : List Bytes) :
    token (front ++ tokensText tokens) = token front := by
  cases tokens with
  | nil => rw [tokensText, List.flatMap_nil, List.append_nil]
  | cons next tokens => exact token_append_slash front _

/-- The node that tokens lead to, and what a change of it does to the document.
`get?` says the same in terms of the JSON value, and `modify` that a new node at this
place is the RFC's replacement: the rest of the document keeps its value, its links
and the fields of its root. -/
structure Reaches (document : Item) (tokens : List Bytes) (place : Item.Path) (node : Item) : Prop where
  at? : document.at? place = some node
  wellFormed : node.WellFormed true
  get? : (document.json true).get? arrayIndex? tokens = some (node.json true)
  modify : ∀ new, new.fields = node.fields ->
    ∃ changed, document.modify (fun _ => some new) place = some changed ∧
      changed.fields = document.fields ∧ (new.WellLinked -> changed.WellLinked) ∧
      (document.json true).replace? arrayIndex? tokens (new.json true) = some (changed.json true)

theorem Reaches.here {document : Item} (wellFormed : document.WellFormed true) :
    Reaches document [] [] document where
  at? := rfl
  wellFormed := wellFormed
  get? := rfl
  modify new same := ⟨new, rfl, same, id, rfl⟩

theorem Reaches.below {document next node : Item} {token : Bytes} {tokens : List Bytes} {position : Nat}
    {place : Item.Path} (wellFormed : document.WellFormed true)
    (there : document.child[position]? = some next)
    (found : (document.json true).next? arrayIndex? token = some (next.json true))
    (exchanged : ∀ new, new.fields = next.fields ->
      (document.withChildren (document.child.set position new) document.headPrev).json true =
        (document.json true).exchange arrayIndex? token (new.json true))
    (reaches : Reaches next tokens place node) :
    Reaches document (token :: tokens) (position :: place) node where
  at? := by
    rw [Item.at?, there]
    exact reaches.at?
  wellFormed := reaches.wellFormed
  get? := by rw [Json.get?, found, Option.bind_some, reaches.get?]
  modify new same := by
    rcases reaches.modify new same with ⟨changed, modified, fields, linked, replaced⟩
    refine ⟨document.withChildren (document.child.set position changed) document.headPrev, ?_, rfl, ?_, ?_⟩
    · simp only [Item.modify, there, modified, Option.map_some]
    · intro newLinked
      refine .mk (fun _ => ?_) (fun child member => ?_)
      · rw [List.length_set]
        exact wellFormed.linked.headPrev (List.ne_nil_of_mem (List.mem_of_getElem? there))
      · rcases List.mem_or_eq_of_mem_set member with old | rfl
        · exact wellFormed.linked.child old
        · exact linked newLinked
    · rw [Json.replace?, found, Option.bind_eq_bind, Option.bind_some, replaced, Option.bind_some,
        exchanged changed fields]

/-- The walker finds what plain tokens designate, and nothing if they designate
nothing.  A path to an array has to read as indices, since the walker and RFC 6901 do
not agree about other tokens there. -/
theorem followPointer_tokens {document : Item} {tokens : List Bytes} (wellFormed : document.WellFormed true)
    (plain : ∀ token ∈ tokens, PlainToken token) (reads : ReadsIndices (document.json true) tokens) :
    (followPointer true (tokensText tokens) document = none ∧
        (document.json true).get? arrayIndex? tokens = none) ∨
      ∃ place node, followPointer true (tokensText tokens) document = some place ∧
        Reaches document tokens place node := by
  induction tokens generalizing document with
  | nil => exact Or.inr ⟨[], document, rfl, .here wellFormed⟩
  | cons token tokens ih =>
      have head := plain token List.mem_cons_self
      have turn : followPointer true (tokensText (token :: tokens)) document =
          (selectChild true document token).bind fun position =>
            (document.child[position]?).bind fun next =>
              (followPointer true (tokensText tokens) next).map (position :: ·) := by
        rw [tokensText_cons, followPointer, if_neg slash_ne_zero, if_pos rfl,
          selectChild_congr (token_append_tokensText token tokens)]
        cases selectChild true document token with
        | none => rfl
        | some position =>
            cases there : document.child[position]? with
            | none => simp only [there, Option.bind_some, Option.bind_none]
            | some next =>
                simp only [there, Option.bind_some]
                exact congrArg _ (followPointer_skip _ next head.zero head.slash)
      rw [turn, Json.get?]
      rcases selectChild_token wellFormed head (fun array =>
        (reads.1 (json_isArray_iff.mpr array)).imp_right And.left) with
        ⟨selected, absent⟩ | ⟨position, next, selected, there, found, exchanged⟩
      · rw [selected, absent]
        exact Or.inl ⟨rfl, rfl⟩
      · rw [selected, Option.bind_some, there, Option.bind_some, found, Option.bind_some]
        rcases ih (wellFormed.child (List.mem_of_getElem? there))
          (fun other member => plain other (List.mem_cons_of_mem _ member)) (reads.2 _ found) with
          ⟨walked, absent⟩ | ⟨place, node, walked, reaches⟩
        · rw [walked]
          exact Or.inl ⟨rfl, absent⟩
        · rw [walked]
          exact Or.inr ⟨_, node, rfl, reaches.below wellFormed there found exchanged⟩

theorem getItemFromPointer_tokensText (document : Item) (tokens : List Bytes) :
    getItemFromPointer document (tokensText tokens) true =
      followPointer true (tokensText tokens) document := by
  cases tokens with
  | nil => rfl
  | cons token tokens => exact if_pos rfl

/-! ## Adding -/

/-- What an attempt to add a value comes to.  It succeeds if and only if the RFC's
`add` is defined for the values, then with the RFC's result and well linked lists; a
refusal leaves the very same document. -/
structure Adds (document : Item) (front : List Bytes) (last : Bytes) (value : Item) (status : Nat)
    (result : Item) : Prop where
  accepted : status = 0 ↔
    ((document.json true).add? arrayIndex? dash front last (value.json true)).isSome = true
  added : status = 0 ->
    (document.json true).add? arrayIndex? dash front last (value.json true) = some (result.json true)
  linked : status = 0 -> value.WellLinked -> result.WellLinked
  refused : status ≠ 0 -> result = document

section Adding

variable {document value node : Item} {front : List Bytes} {last : Bytes} {place : Item.Path}

theorem Adds.of_none {status : Nat} (failed : status ≠ 0)
    (none : (document.json true).add? arrayIndex? dash front last (value.json true) = none) :
    Adds document front last value status document where
  accepted := by
    rw [none]
    exact iff_of_false failed Bool.false_ne_true
  added success := absurd success failed
  linked success := absurd success failed
  refused _ := rfl

/-- Another node in the place of the parent: if the parent has taken the value as RFC
6902 says, so has the document. -/
theorem Reaches.adds {new : Item} (reaches : Reaches document front place node) (same : new.fields = node.fields)
    (linked : value.WellLinked -> new.WellLinked)
    (inserted : (node.json true).insert? arrayIndex? dash last (value.json true) = some (new.json true)) :
    ∃ result, document.modify (fun _ => some new) place = some result ∧
      Adds document front last value 0 result := by
  rcases reaches.modify new same with ⟨result, modified, _, resultLinked, replaced⟩
  have added : (document.json true).add? arrayIndex? dash front last (value.json true) =
      some (result.json true) := by
    rw [Json.add?, reaches.get?, Option.bind_eq_bind, Option.bind_some, inserted, Option.bind_some, replaced]
  refine ⟨result, modified, ?_, fun _ => added, fun _ valueLinked => resultLinked (linked valueLinked),
    fun failed => absurd rfl failed⟩
  rw [added]
  exact iff_of_true rfl rfl

/-- The container refuses the value. -/
theorem Reaches.refuses {status : Nat} (reaches : Reaches document front place node) (failed : status ≠ 0)
    (none : (node.json true).insert? arrayIndex? dash last (value.json true) = none) :
    Adds document front last value status document := by
  apply Adds.of_none failed
  rw [Json.add?, reaches.get?, Option.bind_eq_bind, Option.bind_some, none, Option.bind_none]

theorem compareBy_dash {token : Bytes} (plain : PlainToken token) :
    compareBy id token [45] = 0 ↔ token = dash := by
  rw [cstrCmp_eq_zero, text_eq_self plain.zero]
  rfl

/-- The end of `apply_patch`, for a path of plain tokens: it always comes to a status,
and document and status are as RFC 6902 has them for adding the value there. -/
theorem addToPath_adds {path : Bytes} (wellFormed : document.WellFormed true)
    (plain : ∀ token ∈ front ++ [last], PlainToken token)
    (reads : ReadsIndices (document.json true) (front ++ [last]))
    (ends : text path = tokensText (front ++ [last])) :
    ∃ status result, addToPath document path value true = some (status, result) ∧
      Adds document front last value status result := by
  have frontPlain : ∀ token ∈ front, PlainToken token :=
    fun token member => plain token (List.mem_append_left _ member)
  have lastPlain := plain last (List.mem_append_right _ (List.mem_singleton.mpr rfl))
  rw [addToPath, cjsonUtilsStrdup, ends, tokensText_concat,
    splitPointer_append _ (zero_not_mem_tokensText frontPlain) lastPlain.slash]
  simp only [decodePointerInplace_eq_self lastPlain.zero lastPlain.tilde, getItemFromPointer_tokensText]
  rcases followPointer_tokens wellFormed frontPlain reads.front with
    ⟨walked, absent⟩ | ⟨place, node, walked, reaches⟩
  · rw [walked]
    refine ⟨9, document, rfl, .of_none (by decide) ?_⟩
    rw [Json.add?, absent]
    rfl
  · simp only [walked, reaches.at?]
    by_cases array : node.isArray = true
    · rw [if_pos array]
      have readsLast := reads.last reaches.get? (json_isArray_iff.mpr array)
      have valueOf : ∀ new : Item, new.fields = node.fields ->
          new.json true = .array (new.child.map (json true)) :=
        fun new same => json_array (isArray_congr array same)
      by_cases atEnd : last = dash
      · rw [if_pos ((compareBy_dash lastPlain).mpr atEnd)]
        rcases @addItemToArray_linked node value reaches.wellFormed.linked with
          ⟨changed, added, fields, children, linked⟩
        rcases @Reaches.adds _ _ _ _ last _ _ reaches fields linked (by
          rw [json_array array, Json.insert?, if_pos atEnd, valueOf changed fields, children, List.map_append,
            List.map_singleton]) with ⟨result, modified, adds⟩
        refine ⟨0, result, ?_, adds⟩
        rw [added, Option.bind_eq_bind, Option.bind_some, modified, Option.bind_some]
      · rw [if_neg (mt (compareBy_dash lastPlain).mp atEnd), decodeArrayIndexFromPointer_token lastPlain readsLast]
        cases read : arrayIndex? last with
        | none =>
            refine ⟨11, document, rfl, reaches.refuses (by decide) ?_⟩
            rw [json_array array, Json.insert?, if_neg atEnd, read]
        | some index =>
            by_cases room : index ≤ node.child.length
            · rcases @insertItemInArray_linked node value index reaches.wellFormed.linked room with
                ⟨changed, inserted, fields, children, linked⟩
              rcases @Reaches.adds _ _ _ _ last _ _ reaches fields linked (by
                rw [json_array array, Json.insert?, if_neg atEnd, read, valueOf changed fields, children,
                  List.map_insertIdx]
                exact if_pos (by rwa [List.length_map])) with ⟨result, modified, adds⟩
              refine ⟨0, result, ?_, adds⟩
              simp only [inserted, Option.bind_eq_bind, Option.bind_some, modified, if_true]
            · refine ⟨10, document, ?_, reaches.refuses (by decide) ?_⟩
              · simp only [insertItemInArray, if_pos (not_le.mp room), Option.bind_eq_bind, Option.bind_some,
                  Item.modify_self reaches.at?]
                rfl
              · rw [json_array array, Json.insert?, if_neg atEnd, read]
                exact if_neg (by rwa [List.length_map])
    · rw [if_neg array]
      by_cases object : node.isObject = true
      · rw [if_pos object]
        have folded : foldName true last = last := by
          rw [foldName, text_eq_self lastPlain.zero]
          exact List.map_id last
        rcases @member_put true node last value reaches.wellFormed object with
          ⟨changed, put, fields, linked, changedValue⟩
        rcases @Reaches.adds _ _ _ _ last _ _ reaches fields linked (by
          rw [changedValue, json_object object, Json.member_object, folded, Json.insert?]) with
          ⟨result, modified, adds⟩
        refine ⟨0, result, ?_, adds⟩
        simp only [put, Option.bind_eq_bind, Option.bind_some, modified]
      · rw [if_neg object]
        refine ⟨9, document, rfl, reaches.refuses (by decide) ?_⟩
        cases read : node.json true with
        | null => rfl
        | scalar value => rfl
        | array elements => exact absurd (json_isArray_iff.mp ⟨elements, read⟩) array
        | object members => exact absurd (json_isObject_iff.mp ⟨members, read⟩) object

end Adding

/-! ## The operations -/

/-- The walker reads a pointer up to its terminator. -/
theorem getItemFromPointer_text {caseSensitive : Bool} (item : Item) (pointer : Bytes) :
    getItemFromPointer item (text pointer) caseSensitive =
      getItemFromPointer item pointer caseSensitive := by
  have walk : ∀ (pointer : Bytes) (item : Item), followPointer caseSensitive (text pointer) item =
      followPointer caseSensitive pointer item := by
    intro pointer
    induction pointer with
    | nil => exact fun _ => rfl
    | cons byte rest ih =>
        intro item
        rw [text_cons]
        by_cases zero : byte = 0
        · rw [if_pos zero, followPointer, followPointer, if_pos zero]
        · rw [if_neg zero, followPointer, followPointer]
          simp only [selectChild_congr (token_text rest), ih]
  cases pointer with
  | nil => rfl
  | cons byte rest =>
      rw [getItemFromPointer, getItemFromPointer, walk, text_cons]
      by_cases zero : byte = 0
      · rw [if_pos zero, zero]
        rfl
      · rw [if_neg zero]
        rfl

theorem height_le_of_at? {document node : Item} {place : Item.Path} (found : document.at? place = some node) :
    node.height ≤ document.height := by
  induction place generalizing document with
  | nil =>
      cases found
      exact Nat.le_refl _
  | cons position place ih =>
      cases child : document.child[position]? with
      | none => simp [Item.at?, child] at found
      | some next =>
          simp only [Item.at?, child] at found
          have below := height_lt_of_mem (List.mem_of_getElem? child) (Nat.lt_succ_self document.height)
          exact (ih found).trans below.le

/-- The value that an `add` or a `copy` puts in, where there is one.  What is copied
is the value of the patch for the one and a node of the document for the other; both
have to be shallow enough for `cjson_duplicate`. -/
inductive Supplies (document patch : Item) : Option (Json Bytes Scalar) -> Prop where
  | add {value : Item} (operation : decodePatchOperation patch true = some .add)
      (given : getMember patch valueName true = some value)
      (shallow : value.height ≤ cjsonCircularLimit) : Supplies document patch (some (value.json true))
  | copy {source : Item} {pointer : Bytes} {tokens : List Bytes}
      (operation : decodePatchOperation patch true = some .copy)
      (given : getMember patch fromName true = some source) (isString : source.isString = true)
      (stored : source.fields.valuestring = some pointer) (spelled : text pointer = tokensText tokens)
      (plain : ∀ token ∈ tokens, PlainToken token) (reads : ReadsIndices (document.json true) tokens)
      (shallow : document.height ≤ cjsonCircularLimit) :
      Supplies document patch ((document.json true).get? arrayIndex? tokens)

/-- What RFC 6902 asks of an operation that adds a value behind the last token: it is
a success exactly if there is a value, and a container that has room for it.  After a
success the document has the RFC's value and well linked lists, and a failure leaves
it as it was; the patch is not touched either way. -/
structure MeetsRfc (document patch : Item) (front : List Bytes) (last : Bytes)
    (source : Option (Json Bytes Scalar)) (patched : Patched) : Prop where
  patch : patched.patch = patch
  accepted : patched.status = 0 ↔ ∃ value parent, source = some value ∧
    (document.json true).get? arrayIndex? front = some parent ∧ parent.Accepts arrayIndex? dash last
  result : patched.status = 0 -> ∃ value, source = some value ∧
    (document.json true).add? arrayIndex? dash front last value = some (patched.object.json true)
  linked : patched.status = 0 -> patched.object.WellLinked
  refused : patched.status ≠ 0 -> patched.object = document

theorem Adds.meetsRfc {document patch value result : Item} {front : List Bytes} {last : Bytes} {status : Nat}
    {source : Json Bytes Scalar} (adds : Adds document front last value status result)
    (same : value.json true = source) (linked : value.WellLinked) :
    MeetsRfc document patch front last (some source) ⟨status, result, patch⟩ where
  patch := rfl
  accepted := by
    rw [adds.accepted, Json.add?_isSome_iff]
    constructor
    · rintro ⟨parent, found, accepts⟩
      exact ⟨source, parent, rfl, found, accepts⟩
    · rintro ⟨_, parent, _, found, accepts⟩
      exact ⟨parent, found, accepts⟩
  result success := ⟨source, rfl, same ▸ adds.added success⟩
  linked success := adds.linked success linked
  refused := adds.refused

/-- With regard to case, and for a path of at least one plain token, `add` and `copy` do
what RFC 6902 says. -/
theorem applyPatch_meetsRfc (document patch pathItem : Item) (path : Bytes) (front : List Bytes)
    (last : Bytes) (source : Option (Json Bytes Scalar)) (wellFormed : document.WellFormed true)
    (given : getMember patch pathName true = some pathItem) (isString : pathItem.isString = true)
    (stored : pathItem.fields.valuestring = some path)
    (spelled : text path = tokensText (front ++ [last]))
    (plain : ∀ token ∈ front ++ [last], PlainToken token)
    (reads : ReadsIndices (document.json true) (front ++ [last]))
    (supplies : Supplies document patch source) :
    ∃ patched, applyPatch document patch true = some patched ∧
      MeetsRfc document patch front last source patched := by
  have notRoot : first path ≠ 0 := by
    rw [Ne, ← text_eq_nil_iff, spelled, tokensText_concat]
    exact List.append_ne_nil_of_right_ne_nil _ (List.cons_ne_nil _ _)
  rw [applyPatch, given]
  cases supplies with
  | @add value operation valueGiven shallow =>
      rcases @duplicateRec_copies true value 0 shallow with ⟨copy, made, copied⟩
      rcases @addToPath_adds document copy front last path wellFormed plain reads spelled with
        ⟨status, result, ran, adds⟩
      refine ⟨⟨status, result, patch⟩, ?_, adds.meetsRfc copied.json copied.linked⟩
      simp only [isString, operation, stored, notRoot, applyAtPath, addValue, valueGiven, cjsonDuplicate, made,
        ran, Bool.not_true, Bool.false_eq_true, if_false, false_and, Option.bind_eq_bind, Option.bind_some]
  | @copy fromItem pointer tokens operation fromGiven fromString fromStored fromSpelled fromPlain fromReads
      shallow =>
      have walk : getItemFromPointer document pointer true =
          followPointer true (tokensText tokens) document := by
        rw [← getItemFromPointer_text, fromSpelled, getItemFromPointer_tokensText]
      have opens : applyPatch document patch true = transferValue document patch .copy path true := by
        rw [applyPatch, given]
        simp only [isString, operation, stored, notRoot, applyAtPath, Bool.not_true, Bool.false_eq_true,
          if_false, false_and, Option.bind_eq_bind, Option.bind_some]
      rw [applyPatch, given] at opens
      rw [opens, transferValue, fromGiven]
      simp only [fromString, fromStored, Bool.not_true, Bool.false_eq_true, if_false, reduceCtorEq,
        Option.bind_some, walk]
      rcases followPointer_tokens wellFormed fromPlain fromReads with
        ⟨walked, absent⟩ | ⟨place, node, walked, reaches⟩
      · rw [walked, absent]
        refine ⟨_, rfl, rfl, iff_of_false (show ¬ (5 : Nat) = 0 by decide) ?_,
          (fun impossible => by cases impossible),
          (fun impossible => by cases impossible), fun _ => rfl⟩
        rintro ⟨_, _, impossible, _⟩
        cases impossible
      · have nodeShallow := (height_le_of_at? reaches.at?).trans shallow
        rcases @duplicateRec_copies true node 0 nodeShallow with ⟨copy, made, copied⟩
        rcases @addToPath_adds document copy front last path wellFormed plain reads spelled with
          ⟨status, result, ran, adds⟩
        rw [walked, reaches.get?]
        refine ⟨⟨status, result, patch⟩, ?_, adds.meetsRfc copied.json copied.linked⟩
        simp only [Option.bind_some, reaches.at?, cjsonDuplicate, made, ran, Option.bind_eq_bind]

/-- `{"op": "add", "path": "/b", "value": {"a": null, "b": null}}` on `{"A": null, "a": null}`. -/
theorem applyPatch_meetsRfc_nullMembers :
    ∃ patched, applyPatch (nullMembers [65] [97])
        (patchItem addText [slash, 98] (some (nullMembers [97] [98]))) true = some patched ∧
      MeetsRfc (nullMembers [65] [97]) (patchItem addText [slash, 98] (some (nullMembers [97] [98]))) [] [98]
        (some ((namedItem valueName (nullMembers [97] [98])).json true)) patched := by
  have plain : ∀ token ∈ [] ++ [([98] : Bytes)], PlainToken token := by
    intro token member
    rw [List.mem_singleton.mp member]
    exact ⟨by decide, by decide, by decide⟩
  exact applyPatch_meetsRfc _ _ _ (cjsonStrdup [slash, 98]) [] [98] _
    (nullMembers_wellFormed (by decide)) (getMember_patchItem_path _ _ _ _) rfl rfl rfl plain
    ⟨fun array => (nomatch array), fun _ _ => trivial⟩
    (.add (decodePatchOperation_patchItem _ _ _).1 (getMember_patchItem_value _ _ _ _) (by decide))

end CJson
