import CJson.Trace
import CJson.Prefix

/-!
# The parser and its blocks

Here the parser is followed with the blocks of memory that it asks for and gives
back.  A node knows the block it lies in and the blocks of its two strings; the
calls of the hooks are recorded.  It is the same parser, run on other nodes and
states, and what it reads is what it reads on the buffer alone; what is new are the
releases: of the copy of a number, of a string that cannot be decoded, and of
everything that has been built of a container when the rest of it fails.
-/

namespace CJson

open CString ParseBuffer

/-- A node with its block, the blocks of its strings and its children. -/
inductive Placed where
  | mk (node : Nat) (string valuestring : Option Nat) (fields : Fields) (child : List Placed)
      (headPrev : HeadPrev)

namespace Placed

mutual

/-- The node without its blocks. -/
def item : Placed -> Item
  | mk _ _ _ fields child headPrev => .mk fields (items child) headPrev

def items : List Placed -> List Item
  | [] => []
  | placed :: rest => item placed :: items rest

end

theorem items_eq_map (placed : List Placed) : items placed = placed.map item := by
  induction placed with
  | nil => rfl
  | cons first rest ih => rw [items, ih, List.map_cons]

/-- A zeroed node in a block. -/
def fresh (node : Nat) : Placed := mk node none none { type_ := { base := .invalid } } [] .null

/-- `(*item).type_ = CJSON_STRING` and `(*item).valuestring = output`. -/
def setString : Placed -> Nat -> Bytes -> Placed
  | mk node string _ fields child headPrev, block, output =>
      mk node string (some block) { fields with type_ := { base := .string }, valuestring := some output }
        child headPrev

/-- What `parse_number` stores. -/
def setNumber : Placed -> Binary64 -> Placed
  | mk node string valuestring fields child headPrev, number =>
      mk node string valuestring
        { fields with type_ := { base := .number }, valuedouble := number, valueint := saturate number }
        child headPrev

/-- A value without content. -/
def setLiteral : Placed -> BaseType -> Int -> Placed
  | mk node string valuestring fields child headPrev, base, valueint =>
      mk node string valuestring { fields with type_ := { base := base }, valueint := valueint } child headPrev

/-- The swap of `string` and `valuestring` behind the name. -/
def swapName : Placed -> Placed
  | mk node _ valuestring fields child headPrev =>
      mk node valuestring none { fields with string := fields.valuestring, valuestring := none } child
        headPrev

/-- The node of a container with its children. -/
def finishContainer : Placed -> BaseType -> List Placed -> Placed
  | mk node string valuestring fields _ _, base, children =>
      mk node string valuestring { fields with type_ := { base := base } } children
        (if children.isEmpty then .null else .at (children.length - 1))

/-- The `valueint` of the node. -/
def valueint : Placed -> Int
  | mk _ _ _ fields _ _ => fields.valueint

end Placed

instance : ParseNode Placed where
  newItem := Placed.fresh
  valueint := Placed.valueint
  setString := Placed.setString
  setNumber := Placed.setNumber
  setLiteral := Placed.setLiteral
  swapName := Placed.swapName
  finishContainer := Placed.finishContainer

/-- A buffer and the calls of its hooks. -/
structure Tracing where
  buffer : ParseBuffer
  calls : List HookCall

namespace Tracing

/-- `allocate(size)` through the hooks of the buffer.  The number of the call names the
block, if there is one. -/
def requested (t : Tracing) (size : Nat) : Tracing where
  buffer := t.buffer.requested size
  calls := t.calls ++ [.allocate size (t.buffer.granted size)]

/-- `cjson_dealloc` of a block. -/
def deallocate (t : Tracing) (block : Nat) : Tracing :=
  { t with calls := t.calls ++ [.deallocate (some block)] }

/-- `cjson_dealloc` of a pointer that may be NULL. -/
def release (t : Tracing) : Option Nat -> Tracing
  | none => t
  | some block => t.deallocate block

mutual

/-- The body of the loop of `cjson_delete`. -/
def deleteItem : Placed -> Tracing -> Tracing
  | .mk node string valuestring fields child _, t =>
      let t := if fields.type_.isReference then t else delete child t
      let t := if fields.type_.isReference then t else t.release valuestring
      let t := if fields.type_.stringIsConst then t else t.release string
      t.deallocate node

/-- `cjson_delete` of a list. -/
def delete : List Placed -> Tracing -> Tracing
  | [], t => t
  | item :: rest, t => delete rest (deleteItem item t)

end

end Tracing

open Tracing

instance : ParseState Placed Tracing where
  buffer := Tracing.buffer
  withBuffer := fun t buffer => { t with buffer := buffer }
  nextBlock := fun t => t.calls.length
  requested := Tracing.requested
  deallocate := Tracing.deallocate
  delete := Tracing.delete

/-- `cjson_parse_with_length_opts`, behind the calls that have been made before: the tree in
its blocks, `none` for NULL. -/
def cjsonParseWithLengthOptsTraced (library : CLibrary) (hooks : Hooks) (content : Bytes)
    (bufferLength : Nat) (requireNullTerminated : Bool) (calls : List HookCall) :
    Except Fault (Option Placed × Tracing) :=
  parseDocument library requireNullTerminated (⟨⟨content, bufferLength, 0, 0, hooks⟩, calls⟩ : Tracing)

/-! ## What is read -/

/-- Induction over a placed tree, children first. -/
@[elab_as_elim]
theorem Placed.induct {motive : Placed -> Prop}
    (mk : ∀ node string valuestring fields child headPrev, (∀ item ∈ child, motive item) ->
      motive (.mk node string valuestring fields child headPrev)) (item : Placed) : motive item :=
  @Placed.rec motive (fun items => ∀ item ∈ items, motive item) mk
    (fun _ impossible => absurd impossible List.not_mem_nil)
    (fun _ _ headIh tailIh _ member => by
      rcases List.mem_cons.mp member with same | later
      · exact same ▸ headIh
      · exact tailIh _ later)
    item

theorem Tracing.release_buffer (t : Tracing) (block : Option Nat) : (t.release block).buffer = t.buffer := by
  cases block <;> rfl

theorem Tracing.delete_buffer_of {items : List Placed}
    (each : ∀ item ∈ items, ∀ t, (deleteItem item t).buffer = t.buffer) (t : Tracing) :
    (delete items t).buffer = t.buffer := by
  induction items generalizing t with
  | nil => rfl
  | cons item rest ih =>
      rw [delete, ih (fun other member => each other (List.mem_cons_of_mem _ member)),
        each item List.mem_cons_self]

theorem Tracing.deleteItem_buffer (item : Placed) (t : Tracing) : (deleteItem item t).buffer = t.buffer := by
  induction item using Placed.induct generalizing t with
  | mk node string valuestring fields child headPrev below =>
      rw [deleteItem]
      dsimp only [Tracing.deallocate]
      split <;> split <;> simp only [release_buffer, delete_buffer_of below]

@[simp] theorem Tracing.delete_buffer (items : List Placed) (t : Tracing) :
    (delete items t).buffer = t.buffer :=
  delete_buffer_of (fun item _ => deleteItem_buffer item) t

/-- That a run with the blocks returns what a run without them does. -/
def Erases {α γ : Type} (erase : α -> γ) (traced : Except Fault (Option α × Tracing))
    (plain : Except Fault (Option γ × ParseBuffer)) : Prop :=
  traced.map (fun result => (result.1.map erase, result.2.buffer)) = plain

namespace Erases

variable {α γ α' γ' δ : Type} {erase : α -> γ} {erase' : α' -> γ'}

/-- A computation that asks for no memory, in front of both. -/
theorem step {run : Except Fault δ} {traced : δ -> Except Fault (Option α × Tracing)}
    {plain : δ -> Except Fault (Option γ × ParseBuffer)}
    (each : ∀ found, Erases erase (traced found) (plain found)) :
    Erases erase (run >>= traced) (run >>= plain) := by
  cases run with
  | error fault => rfl
  | ok found => exact each found

theorem ite {condition : Prop} [Decidable condition] {traced traced' : Except Fault (Option α × Tracing)}
    {plain plain' : Except Fault (Option γ × ParseBuffer)} (yes : Erases erase traced plain)
    (no : Erases erase traced' plain') :
    Erases erase (if condition then traced else traced') (if condition then plain else plain') := by
  by_cases holds : condition
  · rw [if_pos holds, if_pos holds]
    exact yes
  · rw [if_neg holds, if_neg holds]
    exact no

theorem none {t : Tracing} {buffer : ParseBuffer} (same : t.buffer = buffer) :
    Erases erase (.ok (none, t)) (.ok (none, buffer)) := by
  cases same
  rfl

theorem some {found : α} {read : γ} {t : Tracing} {buffer : ParseBuffer} (same : erase found = read)
    (here : t.buffer = buffer) : Erases erase (.ok (some found, t)) (.ok (some read, buffer)) := by
  cases same
  cases here
  rfl

/-- A call, and what is done with its result.  If the traces of the callee can be
erased, and those of what follows for a failure and for a success, then so can those
of both. -/
theorem call {traced : Except Fault (Option α' × Tracing)} {plain : Except Fault (Option γ' × ParseBuffer)}
    {next : Option α' × Tracing -> Except Fault (Option α × Tracing)}
    {next' : Option γ' × ParseBuffer -> Except Fault (Option γ × ParseBuffer)}
    (inner : Erases erase' traced plain)
    (failed : ∀ t : Tracing, Erases erase (next (Option.none, t)) (next' (Option.none, t.buffer)))
    (succeeded : ∀ found t, Erases erase (next (Option.some found, t))
      (next' (Option.some (erase' found), t.buffer))) :
    Erases erase (traced >>= next) (plain >>= next') := by
  cases inner
  rcases traced with fault | ⟨_ | found, t⟩
  · rfl
  · exact failed t
  · exact succeeded found t

end Erases

section Runs

variable {library : CLibrary}

theorem failAfterQuote_erases {α γ : Type} {erase : α -> γ} {t : Tracing} {buffer : ParseBuffer}
    (same : t.buffer = buffer) (startOffset : Nat) :
    Erases erase (failAfterQuote t startOffset) (failAfterQuote buffer startOffset) := by
  cases same
  exact Erases.step (fun _ => Erases.none rfl)

theorem parseStringWith_erases {α γ : Type} {erase : α -> γ} {store : Nat -> Bytes -> α}
    {plain : Nat -> Bytes -> γ} (same : ∀ block other output, erase (store block output) = plain other output)
    (t : Tracing) : Erases erase (parseStringWith store t) (parseStringWith plain t.buffer) := by
  unfold parseStringWith
  apply Erases.step
  intro quote
  apply Erases.ite
  · exact failAfterQuote_erases rfl _
  apply Erases.step
  intro found
  cases found with
  | none => exact failAfterQuote_erases rfl _
  | some pair =>
      apply Erases.ite
      · exact failAfterQuote_erases rfl _
      apply Erases.step
      intro decoded
      apply Erases.ite
      · exact Erases.step (fun _ => Erases.none rfl)
      · exact Erases.step (fun _ => Erases.some (same _ _ _) rfl)

theorem parseString_erases (item : Placed) (t : Tracing) :
    Erases Placed.item (parseString item t) (parseString item.item t.buffer) := by
  apply parseStringWith_erases
  intro block other output
  cases item
  rfl

theorem parseNumber_erases (item : Placed) (t : Tracing) :
    Erases Placed.item (parseNumber library item t) (parseNumber library item.item t.buffer) := by
  unfold parseNumber
  apply Erases.step
  intro numberStringLength
  apply Erases.ite (Erases.none rfl)
  apply Erases.step
  intro slice
  apply Erases.ite (Erases.none rfl)
  apply Erases.step
  intro buffer
  refine Erases.some ?_ rfl
  cases item
  rfl

/-- The functions of the parser, up to some fuel, return with the blocks what they return
without them. -/
structure AllErase (library : CLibrary) (fuel : Nat) : Prop where
  value : ∀ (item : Placed) (t : Tracing), Erases Placed.item (parseValue library fuel item t)
    (parseValue library fuel item.item t.buffer)
  array : ∀ (item : Placed) (t : Tracing), Erases Placed.item (parseArray library fuel item t)
    (parseArray library fuel item.item t.buffer)
  object : ∀ (item : Placed) (t : Tracing), Erases Placed.item (parseObject library fuel item t)
    (parseObject library fuel item.item t.buffer)
  arrayLoop : ∀ (head : List Placed) (t : Tracing), Erases Placed.items (parseArrayLoop library fuel head t)
    (parseArrayLoop library fuel (Placed.items head) t.buffer)
  objectLoop : ∀ (head : List Placed) (t : Tracing), Erases Placed.items (parseObjectLoop library fuel head t)
    (parseObjectLoop library fuel (Placed.items head) t.buffer)

theorem parseValue_erases {fuel : Nat} (below : AllErase library fuel) (item : Placed) (t : Tracing) :
    Erases Placed.item (parseValue library (fuel + 1) item t)
      (parseValue library (fuel + 1) item.item t.buffer) := by
  have literal : ∀ base valueint count, Erases Placed.item
      (do let buffer ← t.buffer.advance count
          .ok (some (item.setLiteral base valueint), { t with buffer := buffer }))
      (do let buffer ← t.buffer.advance count
          .ok (some (setLiteral item.item base valueint), buffer)) := by
    intro base valueint count
    apply Erases.step
    intro buffer
    refine Erases.some ?_ rfl
    cases item
    rfl
  have same : item.item.fields.valueint = item.valueint := by
    cases item
    rfl
  unfold parseValue
  dsimp only [ParseNode.valueint]
  rw [same]
  apply Erases.step
  intro isNull
  apply Erases.ite (literal _ _ _)
  apply Erases.step
  intro isFalse
  apply Erases.ite (literal _ _ _)
  apply Erases.step
  intro isTrue
  apply Erases.ite (literal _ _ _)
  apply Erases.ite (Erases.none rfl)
  apply Erases.step
  intro byte
  apply Erases.ite (parseString_erases item t)
  apply Erases.ite (parseNumber_erases item t)
  apply Erases.ite (below.array item t)
  exact Erases.ite (below.object item t) (Erases.none rfl)

theorem finishContainer_erases (item : Placed) (base : BaseType) (children : List Placed) :
    (item.finishContainer base children).item = finishContainer item.item base (Placed.items children) := by
  cases item
  simp [Placed.finishContainer, finishContainer, Placed.item, Placed.items_eq_map]

theorem parseArray_erases {fuel : Nat} (below : AllErase library fuel) (item : Placed) (t : Tracing) :
    Erases Placed.item (parseArray library (fuel + 1) item t)
      (parseArray library (fuel + 1) item.item t.buffer) := by
  unfold parseArray
  apply Erases.ite (Erases.none rfl)
  apply Erases.step
  intro byte
  apply Erases.ite (Erases.none rfl)
  apply Erases.step
  intro behind
  apply Erases.step
  intro start
  apply Erases.step
  intro isEmpty
  apply Erases.ite
  · exact Erases.step (fun _ => Erases.some (finishContainer_erases item _ []) rfl)
  apply Erases.ite (Erases.step (fun _ => Erases.none rfl))
  apply Erases.step
  intro first
  apply Erases.call (below.arrayLoop [] { t with buffer := first })
  · exact fun t => Erases.none rfl
  intro children t
  apply Erases.step
  intro closes
  apply Erases.ite
  · exact Erases.step (fun _ => Erases.some (finishContainer_erases item _ children) rfl)
  · exact Erases.none (delete_buffer children t)

theorem parseObject_erases {fuel : Nat} (below : AllErase library fuel) (item : Placed) (t : Tracing) :
    Erases Placed.item (parseObject library (fuel + 1) item t)
      (parseObject library (fuel + 1) item.item t.buffer) := by
  unfold parseObject
  apply Erases.ite (Erases.none rfl)
  apply Erases.step
  intro opens
  apply Erases.ite (Erases.none rfl)
  apply Erases.step
  intro behind
  apply Erases.step
  intro start
  apply Erases.step
  intro isEmpty
  apply Erases.ite
  · exact Erases.step (fun _ => Erases.some (finishContainer_erases item _ []) rfl)
  apply Erases.ite (Erases.step (fun _ => Erases.none rfl))
  apply Erases.step
  intro first
  apply Erases.call (below.objectLoop [] { t with buffer := first })
  · exact fun t => Erases.none rfl
  intro children t
  apply Erases.step
  intro closes
  apply Erases.ite
  · exact Erases.step (fun _ => Erases.some (finishContainer_erases item _ children) rfl)
  · exact Erases.none (delete_buffer children t)

/-- Behind an entry: the loop goes on, or ends with it.  The loop of an array and that
of an object share this part. -/
theorem continue_erases {loop : Tracing -> Except Fault (Option (List Placed) × Tracing)}
    {plainLoop : ParseBuffer -> Except Fault (Option (List Item) × ParseBuffer)}
    (loops : ∀ t, Erases Placed.items (loop t) (plainLoop t.buffer)) (currentItem : Placed) (t : Tracing) :
    Erases Placed.items
      (do
        let buffer ← bufferSkipWhitespace t.buffer
        if ← buffer.guardedByte 0x2C then do
          let (rest, t) ← loop { t with buffer := buffer }
          .ok (rest.map (currentItem :: ·), t)
        else .ok (some [currentItem], { t with buffer := buffer }))
      (do
        let buffer ← bufferSkipWhitespace t.buffer
        if ← buffer.guardedByte 0x2C then do
          let (rest, buffer) ← plainLoop buffer
          .ok (rest.map (currentItem.item :: ·), buffer)
        else .ok (some [currentItem.item], buffer)) := by
  apply Erases.step
  intro next
  apply Erases.step
  intro comma
  apply Erases.ite
  · exact Erases.call (loops { t with buffer := next }) (fun _ => Erases.none rfl)
      (fun _ _ => Erases.some rfl rfl)
  · exact Erases.some rfl rfl

theorem items_append_singleton (head : List Placed) (item : Placed) :
    Placed.items (head ++ [item]) = Placed.items head ++ [item.item] := by
  rw [Placed.items_eq_map, Placed.items_eq_map, List.map_append, List.map_singleton]

theorem parseArrayLoop_erases {fuel : Nat} (below : AllErase library fuel) (head : List Placed) (t : Tracing) :
    Erases Placed.items (parseArrayLoop library (fuel + 1) head t)
      (parseArrayLoop library (fuel + 1) (Placed.items head) t.buffer) := by
  unfold parseArrayLoop
  apply Erases.ite (Erases.none (delete_buffer head _))
  apply Erases.step
  intro behind
  apply Erases.step
  intro start
  apply Erases.call (below.value (.fresh t.calls.length) { t.requested nodeSize with buffer := start })
  · exact fun t => Erases.none (delete_buffer _ t)
  intro currentItem t
  have loops := below.arrayLoop (head ++ [currentItem])
  rw [items_append_singleton] at loops
  exact continue_erases loops currentItem t

theorem parseObjectLoop_erases {fuel : Nat} (below : AllErase library fuel) (head : List Placed)
    (t : Tracing) :
    Erases Placed.items (parseObjectLoop library (fuel + 1) head t)
      (parseObjectLoop library (fuel + 1) (Placed.items head) t.buffer) := by
  unfold parseObjectLoop
  apply Erases.ite (Erases.none (delete_buffer head _))
  apply Erases.ite (Erases.none (delete_buffer _ _))
  apply Erases.step
  intro behind
  apply Erases.step
  intro start
  apply Erases.call (parseString_erases (.fresh t.calls.length) { t.requested nodeSize with buffer := start })
  · exact fun t => Erases.none (delete_buffer _ t)
  intro named t
  have swapped : swapName named.item = named.swapName.item := by
    cases named
    rfl
  apply Erases.step
  intro atColon
  apply Erases.step
  intro colon
  apply Erases.ite (Erases.none (delete_buffer _ _))
  apply Erases.step
  intro behindColon
  apply Erases.step
  intro value
  dsimp only [ParseNode.swapName]
  rw [swapped]
  apply Erases.call (below.value named.swapName { t with buffer := value })
  · exact fun t => Erases.none (delete_buffer _ t)
  intro currentItem t
  have loops := below.objectLoop (head ++ [currentItem])
  rw [items_append_singleton] at loops
  exact continue_erases loops currentItem t

theorem allErase (library : CLibrary) (fuel : Nat) : AllErase library fuel := by
  induction fuel with
  | zero => exact ⟨fun _ _ => rfl, fun _ _ => rfl, fun _ _ => rfl, fun _ _ => rfl, fun _ _ => rfl⟩
  | succ fuel below =>
      exact ⟨parseValue_erases below, parseArray_erases below, parseObject_erases below,
        parseArrayLoop_erases below, parseObjectLoop_erases below⟩

theorem parseDocument_erases (requireNullTerminated : Bool) (t : Tracing) :
    Erases Placed.item (parseDocument library requireNullTerminated t)
      (parseDocument library requireNullTerminated t.buffer) := by
  unfold parseDocument
  apply Erases.ite (Erases.none rfl)
  apply Erases.ite (Erases.none rfl)
  apply Erases.step
  intro marked
  cases marked with
  | none => exact Erases.none (delete_buffer _ _)
  | some buffer =>
      apply Erases.step
      intro start
      apply Erases.call ((allErase library _).value (.fresh t.calls.length)
        { t.requested nodeSize with buffer := start })
      · exact fun t => Erases.none (delete_buffer _ t)
      intro item t
      apply Erases.ite
      · apply Erases.step
        intro last
        apply Erases.step
        intro ended
        exact Erases.ite (Erases.some rfl rfl) (Erases.none (delete_buffer _ _))
      · exact Erases.some rfl rfl

end Runs

/-- With its blocks or without them, the same tree is returned.  Both are the one
parser, run on nodes that know their blocks and on nodes that do not. -/
theorem cjsonParseWithLengthOptsTraced_erases (library : CLibrary) (hooks : Hooks) (content : Bytes)
    (bufferLength : Nat) (requireNullTerminated : Bool) (calls : List HookCall) :
    (cjsonParseWithLengthOptsTraced library hooks content bufferLength requireNullTerminated calls).map
        (fun result => result.1.map Placed.item) =
      (cjsonParseWithLengthOpts library hooks content bufferLength requireNullTerminated).map
        ParseOutcome.item := by
  have erases := @parseDocument_erases library requireNullTerminated
    ⟨⟨content, bufferLength, 0, 0, hooks⟩, calls⟩
  rw [cjsonParseWithLengthOpts, cjsonParseWithLengthOptsTraced, ← erases]
  rcases parseDocument library requireNullTerminated _ with fault | ⟨_ | tree, t⟩ <;> rfl

end CJson
