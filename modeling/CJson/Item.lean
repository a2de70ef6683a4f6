import CJson.Library.CString
import CJson.Library.Binary64

/-!
# The `cJSON` node as a value

`model.rs` lays a node out as a C struct whose children form a doubly linked
list: `next` ends in NULL and the first child's `prev` points at the last one,
so that appending needs no walk.  An `Item` is such a node together with
everything below it.  The children are a list, in the order in which `next`
visits them.  Of their `prev` links only the first child's carries information
that the list does not determine: it should name the last child, but code that
forgets to restore it leaves it NULL or on some other node.  `HeadPrev` keeps
exactly that.

A node in a tree is named by the positions that lead to it from the root, the
way a pointer names it in memory.
-/

namespace CJson

open CString

/-- The base type in the low byte of `type`.  The constants of the source are single
bits, and everything that is none of them is invalid. -/
inductive BaseType where
  | invalid
  | false
  | true
  | null
  | number
  | string
  | array
  | object
  | raw
  deriving DecidableEq, Repr

/-- The flags of the C field `type`, with the low byte read as a base type.  A
reference borrows its value and its children, and a constant name belongs to the
caller. -/
structure ItemType where
  base : BaseType
  isReference : Bool := false
  stringIsConst : Bool := false
  deriving DecidableEq, Repr

/-- The fields of a node other than its links.  A string field is the block of
memory it points to, or NULL. -/
structure Fields where
  type_ : ItemType
  valuestring : Option Bytes := none
  valueint : Int := 0
  valuedouble : Binary64 := .finite 0
  string : Option Bytes := none
  deriving DecidableEq

/-- What the `prev` field of the first child holds: NULL, the child at some position
of the same list, or a node that is not in the list any more.  It is the one link that
a list does not determine, and the one that appending goes by. -/
inductive HeadPrev where
  | null
  | at (position : Nat)
  | stray
  deriving DecidableEq, Repr

/-- A node with its children.  The order of the list stands for the links between
siblings, and `headPrev` for the one that is left over. -/
inductive Item where
  | mk (fields : Fields) (child : List Item) (headPrev : HeadPrev)

namespace Item

def fields : Item -> Fields
  | mk fields _ _ => fields

/-- The children in `next` order. -/
def child : Item -> List Item
  | mk _ child _ => child

def headPrev : Item -> HeadPrev
  | mk _ _ headPrev => headPrev

@[simp] theorem fields_mk (fields : Fields) (child : List Item) (headPrev : HeadPrev) :
    (mk fields child headPrev).fields = fields := rfl

@[simp] theorem child_mk (fields : Fields) (child : List Item) (headPrev : HeadPrev) :
    (mk fields child headPrev).child = child := rfl

@[simp] theorem headPrev_mk (fields : Fields) (child : List Item) (headPrev : HeadPrev) :
    (mk fields child headPrev).headPrev = headPrev := rfl

@[simp] theorem eta (item : Item) : mk item.fields item.child item.headPrev = item := by
  cases item
  rfl

/-- `(*item).type_ & 0xFF`. -/
def base (item : Item) : BaseType := item.fields.type_.base

/-- The member name. -/
def string (item : Item) : Option Bytes := item.fields.string

@[simp] theorem base_mk (fields : Fields) (child : List Item) (headPrev : HeadPrev) :
    (mk fields child headPrev).base = fields.type_.base := rfl

@[simp] theorem string_mk (fields : Fields) (child : List Item) (headPrev : HeadPrev) :
    (mk fields child headPrev).string = fields.string := rfl

/-- The member name as a C string, the empty text for NULL. -/
def key (item : Item) : Bytes := text (item.string.getD [])

/-- `cJSON_IsArray`. -/
def isArray (item : Item) : Bool := item.base == .array

/-- `cJSON_IsObject`. -/
def isObject (item : Item) : Bool := item.base == .object

/-- `cJSON_IsString`. -/
def isString (item : Item) : Bool := item.base == .string

/-- `cJSON_IsNull`. -/
def isNull (item : Item) : Bool := item.base == .null

/-- Induction over a tree, children first. -/
@[elab_as_elim]
theorem induct {motive : Item -> Prop}
    (node : ∀ fields child headPrev, (∀ item ∈ child, motive item) ->
      motive (mk fields child headPrev)) (item : Item) : motive item :=
  @Item.rec motive (fun items => ∀ item ∈ items, motive item)
    (fun fields child headPrev ih => node fields child headPrev ih)
    (fun _ impossible => absurd impossible List.not_mem_nil)
    (fun _ _ headIh tailIh _ member => by
      rcases List.mem_cons.mp member with same | later
      · exact same ▸ headIh
      · exact tailIh _ later)
    item

/-- Every child list in the tree is well linked. -/
inductive WellLinked : Item -> Prop where
  | mk {fields : Fields} {child : List Item} {headPrev : HeadPrev}
      (here : child ≠ [] -> headPrev = .at (child.length - 1))
      (below : ∀ item ∈ child, WellLinked item) : WellLinked (mk fields child headPrev)

/-- The siblings' names are present and pairwise different C strings.  What a block
holds behind the terminator does not count. -/
def DistinctNames (children : List Item) : Prop :=
  (∀ item ∈ children, item.string.isSome) ∧ (children.map key).Nodup

theorem WellLinked.child {item next : Item} (linked : item.WellLinked) (member : next ∈ item.child) :
    next.WellLinked := by
  cases linked with
  | mk _ below => exact below next member

/-- Every object in the tree has distinct member names. -/
inductive DistinctKeys : Item -> Prop where
  | mk {fields : Fields} {child : List Item} {headPrev : HeadPrev}
      (here : fields.type_.base = .object -> DistinctNames child)
      (below : ∀ item ∈ child, DistinctKeys item) : DistinctKeys (mk fields child headPrev)

theorem DistinctKeys.child {item next : Item} (distinct : item.DistinctKeys)
    (member : next ∈ item.child) : next.DistinctKeys := by
  cases distinct with
  | mk _ below => exact below next member

theorem DistinctKeys.names {item : Item} (distinct : item.DistinctKeys)
    (object : item.isObject = true) : DistinctNames item.child := by
  cases distinct with
  | mk here _ => exact here (by simpa [isObject] using object)

/-- Every child list in the tree is shorter than the address space is long. -/
inductive Addressable : Item -> Prop where
  | mk {fields : Fields} {child : List Item} {headPrev : HeadPrev}
      (here : child.length < 2 ^ 64) (below : ∀ item ∈ child, Addressable item) :
      Addressable (mk fields child headPrev)

theorem Addressable.child {item next : Item} (addressable : item.Addressable)
    (member : next ∈ item.child) : next.Addressable := by
  cases addressable with
  | mk _ below => exact below next member

theorem Addressable.length_lt {item : Item} (addressable : item.Addressable) :
    item.child.length < 2 ^ 64 := by
  cases addressable with
  | mk here _ => exact here

/-- A pointer to a node, as the positions that lead to it from the root. -/
abbrev Path := List Nat

/-- The node a path leads to. -/
def at? : Item -> Path -> Option Item
  | item, [] => some item
  | item, position :: path =>
      match item.child[position]? with
      | none => none
      | some next => next.at? path

end Item
end CJson
