import CJson.Escape
import CJson.Patch

/-!
# Generating patches

`create_patches` of `utils.rs` walks along two documents and writes down what has
to be done to the first to get the second.  It sorts the objects of both on its
way.  The array of patches is the list of the patches appended so far.
-/

namespace CJson

open CString

/-- `cjson_create_string`. -/
def cjsonCreateString (string : Bytes) : Item :=
  .mk { type_ := { base := .string }, valuestring := some (cjsonStrdup string) } [] .null

/-- `alloc_indexed_path`. -/
def allocIndexedPath (path : Bytes) (index : Nat) : Bytes :=
  text path ++ slash :: (decimalDigits index ++ [0])

/-- `alloc_index_string`. -/
def allocIndexString (index : Nat) : Bytes := decimalDigits index ++ [0]

/-- The path with the escaped name of a member behind it. -/
def encodedPath (path name : Bytes) : Bytes :=
  encodeStringAsPointer (text path ++ slash :: List.replicate (pointerEncodedLength name + 1) 0)
    ((text path).length + 1) name

/-- `compose_patch`: the patch that is appended.  A value that is too deep to be copied
is left out. -/
def composePatch (operation path : Bytes) (suffix : Option Bytes) (value : Option Item) :
    Option Item := do
  let patch ← cjsonAddItemToObject cjsonCreateObject opName (cjsonCreateString operation)
  let fullPath := match suffix with
    | none => path
    | some suffix => encodedPath path suffix
  let patch ← cjsonAddItemToObject patch pathName (cjsonCreateString fullPath)
  match value.bind cjsonDuplicate with
  | none => some patch
  | some copy => cjsonAddItemToObject patch valueName copy

/-- The patches that are appended and the two trees that are left.  Making patches
sorts the objects of both trees, and their callers see the order. -/
structure Diffed (α : Type) where
  patches : List Item
  from_ : α
  to_ : α

/-- The loops of `create_patches` for arrays, with what makes the patches of a pair of
elements. -/
def createElementPatches (create : Bytes -> Item -> Item -> Option (Diffed Item)) (path : Bytes) :
    Nat -> List Item -> List Item -> Option (Diffed (List Item))
  | index, fromChild :: from_, toChild :: to_ => do
      let element ← create (allocIndexedPath path index) fromChild toChild
      let rest ← createElementPatches create path (index + 1) from_ to_
      some ⟨element.patches ++ rest.patches, element.from_ :: rest.from_, element.to_ :: rest.to_⟩
  | index, from_, [] => do
      -- remove leftover elements
      let patches ← from_.mapM fun _ =>
        composePatch removeText path (some (allocIndexString index)) none
      some ⟨patches, from_, []⟩
  | _, [], to_ => do
      -- add new elements
      let patches ← to_.mapM fun toChild => composePatch addText path (some [45]) (some toChild)
      some ⟨patches, [], to_⟩

/-- The loop of `create_patches` along two sorted lists of members.  Of two names that
differ the smaller one has no counterpart: in the old object it is removed, in the new
one it is added.  Members of the same name are compared under the path that the name
extends. -/
def createMemberPatches (create : Bytes -> Item -> Item -> Option (Diffed Item)) (path : Bytes)
    (caseSensitive : Bool) : Nat -> List Item -> List Item -> Option (Diffed (List Item))
  | 0, _, _ => none
  | _ + 1, [], [] => some ⟨[], [], []⟩
  | fuel + 1, fromChild :: from_, [] => do
      let patch ← composePatch removeText path fromChild.string none
      let rest ← createMemberPatches create path caseSensitive fuel from_ []
      some ⟨patch :: rest.patches, fromChild :: rest.from_, rest.to_⟩
  | fuel + 1, [], toChild :: to_ => do
      let patch ← composePatch addText path toChild.string (some toChild)
      let rest ← createMemberPatches create path caseSensitive fuel [] to_
      some ⟨patch :: rest.patches, rest.from_, toChild :: rest.to_⟩
  | fuel + 1, fromChild :: from_, toChild :: to_ => do
      let diff := compareStrings fromChild.string toChild.string caseSensitive
      if diff = 0 then
        -- both object keys are the same
        let name ← fromChild.string
        let member ← create (encodedPath path name) fromChild toChild
        let rest ← createMemberPatches create path caseSensitive fuel from_ to_
        some ⟨member.patches ++ rest.patches, member.from_ :: rest.from_, member.to_ :: rest.to_⟩
      else if diff < 0 then
        -- object element doesn't exist in 'to' --> remove it
        let patch ← composePatch removeText path fromChild.string none
        let rest ← createMemberPatches create path caseSensitive fuel from_ (toChild :: to_)
        some ⟨patch :: rest.patches, fromChild :: rest.from_, rest.to_⟩
      else
        -- object element doesn't exist in 'from' --> add it
        let patch ← composePatch addText path toChild.string (some toChild)
        let rest ← createMemberPatches create path caseSensitive fuel (fromChild :: from_) to_
        some ⟨patch :: rest.patches, rest.from_, toChild :: rest.to_⟩

/-- `create_patches` for two nodes, on a budget for the depth.  There is no result when a
string without a value is read. -/
def createPatches : Nat -> Bytes -> Item -> Item -> Bool -> Option (Diffed Item)
  | 0, _, _, _, _ => none
  | fuel + 1, path, from_, to_, caseSensitive =>
      let replace := do
        let patch ← composePatch replaceText path none (some to_)
        some (⟨[patch], from_, to_⟩ : Diffed Item)
      if from_.base ≠ to_.base then replace
      else
        match from_.base with
        | .number =>
            if from_.fields.valueint ≠ to_.fields.valueint ∨
                compareDouble from_.fields.valuedouble to_.fields.valuedouble = false then replace
            else some ⟨[], from_, to_⟩
        | .string => do
            let order ← cstrCmp from_.fields.valuestring to_.fields.valuestring
            if order ≠ 0 then replace else some ⟨[], from_, to_⟩
        | .array => do
            let below ← createElementPatches
              (fun path from_ to_ => createPatches fuel path from_ to_ caseSensitive) path 0
              from_.child to_.child
            some ⟨below.patches, from_.withChildren below.from_ from_.headPrev,
              to_.withChildren below.to_ to_.headPrev⟩
        | .object => do
            let from_ := sortObject from_ caseSensitive
            let to_ := sortObject to_ caseSensitive
            let below ← createMemberPatches
              (fun path from_ to_ => createPatches fuel path from_ to_ caseSensitive) path caseSensitive
              (from_.child.length + to_.child.length + 1) from_.child to_.child
            some ⟨below.patches, from_.withChildren below.from_ from_.headPrev,
              to_.withChildren below.to_ to_.headPrev⟩
        | _ => some ⟨[], from_, to_⟩

/-- `cJSONUtils_GeneratePatches` and its case-sensitive variant: the array, and what
sorting leaves of the two documents. -/
def generatePatches (from_ to_ : Item) (caseSensitive : Bool) : Option (Item × Item × Item) := do
  let diff ← createPatches (from_.height + 1) [0] from_ to_ caseSensitive
  some (.mk { type_ := { base := .array } } diff.patches (.ofList diff.patches), diff.from_, diff.to_)

/-- `cJSONUtils_GeneratePatches`. -/
def cjsonUtilsGeneratePatches (from_ to_ : Item) : Option (Item × Item × Item) :=
  generatePatches from_ to_ false

/-- `cJSONUtils_GeneratePatchesCaseSensitive`. -/
def cjsonUtilsGeneratePatchesCaseSensitive (from_ to_ : Item) : Option (Item × Item × Item) :=
  generatePatches from_ to_ true

end CJson
