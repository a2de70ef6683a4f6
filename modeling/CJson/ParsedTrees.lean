import CJson.Patch
import CJson.Prefix

/-!
# The trees that the parser makes

Whatever text is accepted, the tree is one of a small kind: no flags, no raw
text, content only where the type has some, names exactly on the members of
objects, well linked lists, and no more than the nesting limit of levels.
-/

namespace CJson

open CString Item

/-- A tree with this name that has containers nested at most `limit` deep.  These are
the trees that the parser returns; they have no flags, no name at the root, and both
fields of a number agree as far as an `int` goes. -/
inductive ParsedTree : Nat -> Option Bytes -> Item -> Prop where
  | null {limit : Nat} {name : Option Bytes} :
      ParsedTree limit name (.mk { type_ := { base := .null }, string := name } [] .null)
  | false {limit : Nat} {name : Option Bytes} :
      ParsedTree limit name (.mk { type_ := { base := .false }, string := name } [] .null)
  | true {limit : Nat} {name : Option Bytes} :
      ParsedTree limit name (.mk { type_ := { base := .true }, valueint := 1, string := name } [] .null)
  | string {limit : Nat} {name : Option Bytes} (output : Bytes) :
      ParsedTree limit name
        (.mk { type_ := { base := .string }, valuestring := some output, string := name } [] .null)
  | number {limit : Nat} {name : Option Bytes} (number : Binary64) :
      ParsedTree limit name
        (.mk { type_ := { base := .number }, valuedouble := number, valueint := saturate number, string := name }
          [] .null)
  | array {limit : Nat} {name : Option Bytes} {elements : List Item}
      (each : ∀ element ∈ elements, ParsedTree limit none element) :
      ParsedTree (limit + 1) name
        (.mk { type_ := { base := .array }, string := name } elements (.ofList elements))
  | object {limit : Nat} {name : Option Bytes} {members : List Item}
      (named : ∀ member ∈ members, member.string.isSome = true)
      (each : ∀ member ∈ members, ParsedTree limit member.string member) :
      ParsedTree (limit + 1) name
        (.mk { type_ := { base := .object }, string := name } members (.ofList members))

theorem ParsedTree.string_eq {limit : Nat} {name : Option Bytes} {item : Item}
    (parsed : ParsedTree limit name item) : item.string = name := by
  cases parsed <;> rfl

/-- No flags, linked lists, and again such trees below. -/
theorem ParsedTree.plain {limit : Nat} {name : Option Bytes} {fields : Fields} {child : List Item}
    {headPrev : HeadPrev} (parsed : ParsedTree limit name (.mk fields child headPrev)) :
    fields.type_ = { base := fields.type_.base } ∧ (child ≠ [] -> headPrev = .at (child.length - 1)) ∧
      ∀ item ∈ child, ∃ limit name, ParsedTree limit name item := by
  have linked : ∀ items : List Item, items ≠ [] -> HeadPrev.ofList items = .at (items.length - 1) := by
    intro items nonempty
    rw [HeadPrev.ofList, if_neg (by simpa using nonempty)]
  cases parsed with
  | array each => exact ⟨rfl, linked child, fun item inside => ⟨_, _, each item inside⟩⟩
  | object _ each => exact ⟨rfl, linked child, fun item inside => ⟨_, _, each item inside⟩⟩
  | _ => exact ⟨rfl, fun impossible => absurd rfl impossible, List.forall_mem_nil _⟩

theorem finishContainer_eq (name : Option Bytes) (base : BaseType) (items : List Item) :
    finishContainer (named name) base items =
      .mk { type_ := { base := base }, string := name } items (.ofList items) :=
  rfl

/-- The trees that a phrase of the grammar may denote: elements without a name, and
members with one. -/
def Denoted (limit : Nat) : Phrase -> List Item -> Prop
  | .value name, items => ∀ item ∈ items, ParsedTree limit name item
  | .entry .array, items | .entries .array, items => ∀ item ∈ items, ParsedTree limit none item
  | .entry .object, items | .entries .object, items =>
      ∀ item ∈ items, item.string.isSome = true ∧ ParsedTree limit item.string item

theorem denoted_of_derives {library : CLibrary} {phrase : Phrase} {limit : Nat} {text : Bytes} {items : List Item}
    (derives : Derives library phrase limit text items) : Denoted limit phrase items := by
  induction derives with
  | null => exact List.forall_mem_singleton.mpr .null
  | false => exact List.forall_mem_singleton.mpr .false
  | true => exact List.forall_mem_singleton.mpr .true
  | string => exact List.forall_mem_singleton.mpr (.string _)
  | number => exact List.forall_mem_singleton.mpr (.number _)
  | empty kind =>
      intro item inside
      cases List.mem_singleton.mp inside
      rw [finishContainer_eq]
      cases kind with
      | array => exact .array (List.forall_mem_nil _)
      | object => exact .object (List.forall_mem_nil _) (List.forall_mem_nil _)
  | filled kind _ _ below =>
      intro item inside
      cases List.mem_singleton.mp inside
      rw [finishContainer_eq]
      cases kind with
      | array => exact .array below
      | object =>
          exact .object (fun member inside => (below member inside).1) fun member inside =>
            (below member inside).2
  | element _ below => exact below
  | member _ _ _ _ below =>
      intro item inside
      cases List.mem_singleton.mp inside
      have parsed := below _ List.mem_cons_self
      rw [parsed.string_eq]
      exact ⟨rfl, parsed⟩
  | @last kind _ _ _ _ _ _ below => cases kind <;> exact below
  | @more kind _ _ _ _ _ _ _ _ _ _ _ first others =>
      cases kind <;> exact List.forall_mem_cons.mpr ⟨first _ List.mem_cons_self, others⟩

theorem ValueAt.parsedTree {library : CLibrary} {rest text : Bytes} {item : Item}
    (valueAt : ValueAt library rest text item) : ParsedTree nestingLimit none item := by
  cases valueAt with
  | number => exact .number _
  | other _ derives => exact denoted_of_derives derives item List.mem_cons_self

theorem ParsedTree.of_parse {library : CLibrary} (consumes : library.ConsumesAtMost) {hooks : Hooks}
    {content : Bytes} {requireNullTerminated : Bool} {outcome : ParseOutcome} {item : Item}
    (parsed : cjsonParseWithLengthOpts library hooks content content.length requireNullTerminated = .ok outcome)
    (accepts : outcome.item = some item) : ParsedTree nestingLimit none item := by
  have nonempty : content ≠ [] := by
    rintro rfl
    cases parsed
    cases accepts
  rw [cjsonParseWithLengthOpts_eq nonempty (granted_of_parse nonempty parsed accepts)] at parsed
  have valid : (contentBuffer hooks content).Valid := ⟨rfl, Nat.zero_le _⟩
  have start := valid.skip (leadLength_le (contentBuffer hooks content).remaining)
  rcases Except.bind_eq_ok.mp parsed with ⟨⟨found, after⟩, read, finished⟩
  cases found with
  | none => cases requireNullTerminated <;> cases finished <;> cases accepts
  | some found =>
      rcases parseValue_valueAt consumes start rfl read with ⟨core, rest, split, moved, valueAt⟩
      cases requireNullTerminated with
      | false =>
          cases finished
          cases accepts
          exact valueAt.parsedTree
      | true =>
          have afterValid := moved.valid start (by rw [split]; simp)
          rcases finishDocument_sound afterValid finished accepts with ⟨rfl, _⟩
          exact valueAt.parsedTree

end CJson
