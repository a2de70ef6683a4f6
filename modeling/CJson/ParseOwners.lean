import CJson.ParseTrace

/-!
# Who owns the blocks of a parse

While the parser runs, each block that it has obtained and not given back belongs
to one node of the trees it is building, or it is the copy of a number.  A failure
releases what belongs to the trees below the item it reports to; that item, and the
elder siblings on the way up, are released by their owners.
-/

namespace CJson

open CString ParseBuffer Tracing

namespace Placed

mutual

/-- The blocks of a tree, in the order in which they are released. -/
def blocks : Placed -> List Nat
  | mk node string valuestring _ child _ =>
      blocksOf child ++ (valuestring.toList ++ (string.toList ++ [node]))

def blocksOf : List Placed -> List Nat
  | [] => []
  | item :: rest => blocks item ++ blocksOf rest

end

theorem blocksOf_append (first second : List Placed) :
    blocksOf (first ++ second) = blocksOf first ++ blocksOf second := by
  induction first with
  | nil => rfl
  | cons item rest ih => rw [List.cons_append, blocksOf, blocksOf, ih, List.append_assoc]

/-- No node is flagged, and the strings that there are lie in blocks of their own.
Such a tree owns all of its blocks, and deleting it gives every one of them back. -/
inductive Owned : Placed -> Prop where
  | mk {node : Nat} {string valuestring : Option Nat} {fields : Fields} {child : List Placed}
      {headPrev : HeadPrev} (isNoReference : fields.type_.isReference = false)
      (isNotConst : fields.type_.stringIsConst = false) (key : string.isSome = fields.string.isSome)
      (value : valuestring.isSome = fields.valuestring.isSome) (below : ∀ item ∈ child, Owned item) :
      Owned (mk node string valuestring fields child headPrev)

/-- A node without children and without a string value, as a call that is to fill it
gets it.  It may have a name. -/
def Bare : Placed -> Prop
  | mk _ _ valuestring fields child _ =>
      valuestring = none ∧ fields.valuestring = none ∧ child = []

end Placed

/-- The blocks that are live after the calls made since `before`, when those that are
listed in `outside` were live then.  The calls are replayed from the start, and every
release among them was one of a live block. -/
def Holds (before : List HookCall) (outside : List Nat) (t : Tracing) (live : List Nat) : Prop :=
  ∃ more now, t.calls = before ++ more ∧ replay before.length outside more = some now ∧
    now.Perm live ∧ live.Nodup ∧ ∀ block ∈ live, block < t.calls.length

namespace Holds

variable {before : List HookCall} {outside live : List Nat} {t : Tracing}

theorem perm {other : List Nat} (holds : Holds before outside t live) (same : live.Perm other) :
    Holds before outside t other := by
  rcases holds with ⟨more, now, split, replayed, listed, distinct, bounded⟩
  refine ⟨more, now, split, replayed, listed.trans same, same.nodup_iff.mp distinct, ?_⟩
  intro block inside
  exact bounded block (same.mem_iff.mpr inside)

/-- A new call.  Replaying it turns the blocks that are live into those that are live
afterwards, none of them twice; a block it brings has the number of the call. -/
theorem append {call : HookCall} {after : Tracing} {now : List Nat} (holds : Holds before outside t live)
    (called : after.calls = t.calls ++ [call])
    (effect : ∀ listed, listed.Perm live -> ∃ then_, replay t.calls.length listed [call] = some then_ ∧
      then_.Perm now)
    (distinct : now.Nodup) (known : ∀ block ∈ now, block ∈ live ∨ block = t.calls.length) :
    Holds before outside after now := by
  rcases holds with ⟨more, listed, split, replayed, same, _, bounded⟩
  rcases effect listed same with ⟨then_, next, nextSame⟩
  refine ⟨more ++ [call], then_, ?_, ?_, nextSame, distinct, ?_⟩
  · rw [called, split, List.append_assoc]
  · rw [replay_append, replayed, Option.bind_some, ← List.length_append, ← split]
    exact next
  · intro block inside
    rw [called, List.length_append, List.length_singleton]
    rcases known block inside with old | new
    · have small := bounded block old
      omega
    · omega

theorem nodup (holds : Holds before outside t live) : live.Nodup := by
  rcases holds with ⟨_, _, _, _, _, distinct, _⟩
  exact distinct

theorem fresh (holds : Holds before outside t live) : t.calls.length ∉ live := by
  rcases holds with ⟨_, _, _, _, _, _, bounded⟩
  intro inside
  exact absurd (bounded _ inside) (Nat.lt_irrefl _)

/-- A request that is refused changes nothing. -/
theorem refused {size : Nat} (holds : Holds before outside t live) (denied : (!t.buffer.granted size) = true) :
    Holds before outside (t.requested size) live := by
  have denied : t.buffer.granted size = false := by simpa using denied
  apply @append _ _ _ _ (.allocate size false) _ _ holds
  · rw [Tracing.requested, denied]
  · exact fun listed same => ⟨listed, rfl, same⟩
  · exact holds.nodup
  · exact fun _ => Or.inl

/-- A request that is granted gets a block of its own. -/
theorem granted {size : Nat} (holds : Holds before outside t live) (given : ¬ (!t.buffer.granted size) = true) :
    Holds before outside (t.requested size) (t.calls.length :: live) := by
  have given : t.buffer.granted size = true := by simpa using given
  apply @append _ _ _ _ (.allocate size true) _ _ holds
  · rw [Tracing.requested, given]
  · exact fun listed same => ⟨_, rfl, same.cons _⟩
  · exact List.nodup_cons.mpr ⟨holds.fresh, holds.nodup⟩
  · intro block inside
    rcases List.mem_cons.mp inside with new | old
    · exact Or.inr new
    · exact Or.inl old

/-- The release of a block that is live. -/
theorem deallocate {block : Nat} (holds : Holds before outside t (block :: live)) :
    Holds before outside (t.deallocate block) live := by
  apply @append _ _ _ _ (.deallocate (some block)) _ _ holds rfl
  · intro listed same
    refine ⟨listed.erase block, ?_, ?_⟩
    · rw [replay, if_pos (same.mem_iff.mpr List.mem_cons_self), replay]
    · have erased := same.erase block
      rwa [List.erase_cons_head] at erased
  · exact (List.nodup_cons.mp holds.nodup).2
  · exact fun other inside => Or.inl (List.mem_cons_of_mem _ inside)

theorem release {block : Option Nat} (holds : Holds before outside t (block.toList ++ live)) :
    Holds before outside (t.release block) live := by
  cases block with
  | none => exact holds
  | some block => exact holds.deallocate

theorem delete_of {items : List Placed}
    (each : ∀ item ∈ items, ∀ t live, Holds before outside t (item.blocks ++ live) ->
      Holds before outside (deleteItem item t) live)
    (holds : Holds before outside t (Placed.blocksOf items ++ live)) :
    Holds before outside (delete items t) live := by
  induction items generalizing t with
  | nil => exact holds
  | cons item rest ih =>
      rw [Placed.blocksOf, List.append_assoc] at holds
      rw [Tracing.delete]
      apply ih (fun other member => each other (List.mem_cons_of_mem _ member))
      exact each item List.mem_cons_self t _ holds

/-- `cjson_delete` releases the blocks of the tree, each once. -/
theorem deleteItem {item : Placed} (owned : item.Owned)
    (holds : Holds before outside t (item.blocks ++ live)) :
    Holds before outside (deleteItem item t) live := by
  induction item using Placed.induct generalizing t live with
  | mk node string valuestring fields child headPrev below =>
      cases owned with
      | mk isNoReference isNotConst _ _ ownedBelow =>
          rw [Placed.blocks, List.append_assoc, List.append_assoc, List.append_assoc] at holds
          have children := delete_of (fun item member t live =>
            @below item member live t (ownedBelow item member)) holds
          rw [Tracing.deleteItem, isNoReference, isNotConst]
          exact children.release.release.deallocate

theorem delete {items : List Placed} (owned : ∀ item ∈ items, item.Owned)
    (holds : Holds before outside t (Placed.blocksOf items ++ live)) :
    Holds before outside (delete items t) live :=
  delete_of (fun item member _ _ => deleteItem (owned item member)) holds

end Holds

/-! ## What becomes of an item -/

namespace Placed

variable {item : Placed}

theorem owned_fresh (node : Nat) : (fresh node).Owned :=
  .mk rfl rfl rfl rfl (fun _ impossible => absurd impossible List.not_mem_nil)

theorem bare_fresh (node : Nat) : (fresh node).Bare := ⟨rfl, rfl, rfl⟩

theorem Owned.setString (owned : item.Owned) (block : Nat) (output : Bytes) :
    (item.setString block output).Owned := by
  cases owned with
  | mk isNoReference isNotConst key value below => exact .mk rfl rfl key rfl below

theorem blocks_setString (bare : item.Bare) (block : Nat) (output : Bytes) :
    (item.setString block output).blocks = block :: item.blocks := by
  cases item with
  | mk node string valuestring fields child headPrev =>
      rcases bare with ⟨rfl, _, rfl⟩
      rfl

theorem Owned.setNumber (owned : item.Owned) (number : Binary64) : (item.setNumber number).Owned := by
  cases owned with
  | mk isNoReference isNotConst key value below => exact .mk rfl rfl key value below

theorem blocks_setNumber (number : Binary64) : (item.setNumber number).blocks = item.blocks := by
  cases item
  rfl

theorem Owned.setLiteral (owned : item.Owned) (base : BaseType) (valueint : Int) :
    (item.setLiteral base valueint).Owned := by
  cases owned with
  | mk isNoReference isNotConst key value below => exact .mk rfl rfl key value below

theorem blocks_setLiteral (base : BaseType) (valueint : Int) :
    (item.setLiteral base valueint).blocks = item.blocks := by
  cases item
  rfl

theorem Owned.finishContainer (owned : item.Owned) (base : BaseType) {children : List Placed}
    (each : ∀ child ∈ children, child.Owned) : (item.finishContainer base children).Owned := by
  cases owned with
  | mk isNoReference isNotConst key value below => exact .mk rfl rfl key value each

theorem blocks_finishContainer (bare : item.Bare) (base : BaseType) (children : List Placed) :
    (item.finishContainer base children).blocks = blocksOf children ++ item.blocks := by
  cases item with
  | mk node string valuestring fields child headPrev =>
      rcases bare with ⟨rfl, _, rfl⟩
      rfl

/-- The name of a fresh node keeps its block. -/
theorem swapName_fresh (node block : Nat) (output : Bytes) :
    ((fresh node).setString block output).swapName.Owned ∧
      ((fresh node).setString block output).swapName.Bare ∧
      ((fresh node).setString block output).swapName.blocks = block :: (fresh node).blocks :=
  ⟨.mk rfl rfl rfl rfl (fun _ impossible => absurd impossible List.not_mem_nil), ⟨rfl, rfl, rfl⟩, rfl⟩

end Placed

section Runs

variable (before : List HookCall) (outside : List Nat)

/-- After a call that fills an item: it is as it was, or it is complete, and nothing
else has changed.  `rest` are the blocks that the call has nothing to do with. -/
def Leaves (item : Placed) (rest : List Nat) : Option Placed × Tracing -> Prop
  | (none, t) => Holds before outside t (item.blocks ++ rest)
  | (some result, t) => result.Owned ∧ Holds before outside t (result.blocks ++ rest)

/-- After a loop that has been given the front of a list: nothing of the list is left, or
it is complete.  A loop that fails has deleted what there was of the list. -/
def LeavesList (head : List Placed) (rest : List Nat) : Option (List Placed) × Tracing -> Prop
  | (none, t) => Holds before outside t rest
  | (some children, t) => (∀ child ∈ children, child.Owned) ∧
      Holds before outside t (Placed.blocksOf (head ++ children) ++ rest)

variable {before outside} {library : CLibrary} {item : Placed} {t : Tracing} {rest : List Nat}

theorem failAfterQuote_leaves {α : Type} {startOffset : Nat}
    (holds : Holds before outside t (item.blocks ++ rest)) {post : Option α × Tracing -> Prop}
    (fails : ∀ t, Holds before outside t (item.blocks ++ rest) -> post (none, t)) :
    Yields (failAfterQuote t startOffset) post (fun _ => True) := by
  apply Yields.step
  intro buffer
  exact Yields.ok (fails _ holds)

/-- A string that has been read lies in a new block, and one that is refused has left
nothing behind: its output, if there was one, has been given back. -/
theorem parseString_leaves (holds : Holds before outside t (item.blocks ++ rest)) :
    Yields (parseString item t)
      (fun result => (result.1 = none ∧ Holds before outside result.2 (item.blocks ++ rest)) ∨
        ∃ block output, result.1 = some (item.setString block output) ∧
          Holds before outside result.2 (block :: (item.blocks ++ rest)))
      (fun _ => True) := by
  have fails : ∀ {t : Tracing} {startOffset : Nat}, Holds before outside t (item.blocks ++ rest) ->
      Yields (failAfterQuote t startOffset)
        (fun result => (result.1 = none ∧ Holds before outside result.2 (item.blocks ++ rest)) ∨
          ∃ block output, result.1 = some (item.setString block output) ∧
            Holds before outside result.2 (block :: (item.blocks ++ rest))) (fun _ => True) :=
    fun holds => failAfterQuote_leaves holds (fun _ after => Or.inl ⟨rfl, after⟩)
  unfold parseString parseStringWith
  apply Yields.step
  intro quote
  refine Yields.ite (fun _ => fails holds) (fun _ => ?_)
  apply Yields.step
  intro found
  cases found with
  | none => exact fails holds
  | some pair =>
      rcases pair with ⟨inputEnd, skippedBytes⟩
      refine Yields.ite (fun denied => fails (holds.refused denied)) (fun given => ?_)
      have asked := holds.granted given
      apply Yields.step
      intro decoded
      refine Yields.ite (fun _ => ?_) (fun _ => ?_)
      · apply Yields.step
        intro buffer
        exact Yields.ok (Or.inl ⟨rfl, asked.deallocate⟩)
      · apply Yields.step
        intro buffer
        exact Yields.ok (Or.inr ⟨t.calls.length, decoded.2, rfl, asked⟩)

theorem parseString_value (owned : item.Owned) (bare : item.Bare)
    (holds : Holds before outside t (item.blocks ++ rest)) :
    Yields (parseString item t) (Leaves before outside item rest) (fun _ => True) := by
  apply (parseString_leaves holds).mono
  · rintro ⟨result, after⟩ (⟨rfl, left⟩ | ⟨block, output, rfl, left⟩)
    · exact left
    · refine ⟨owned.setString block output, ?_⟩
      rw [Placed.blocks_setString bare]
      exact left
  · exact fun _ _ => trivial

/-- The copy of a number is released in any case. -/
theorem parseNumber_leaves (owned : item.Owned)
    (holds : Holds before outside t (item.blocks ++ rest)) :
    Yields (parseNumber library item t) (Leaves before outside item rest) (fun _ => True) := by
  unfold parseNumber
  apply Yields.step
  intro numberStringLength
  refine Yields.ite (fun denied => Yields.ok (holds.refused denied)) (fun given => ?_)
  have asked := holds.granted given
  apply Yields.step
  intro slice
  refine Yields.ite (fun _ => Yields.ok asked.deallocate) (fun _ => ?_)
  apply Yields.step
  intro buffer
  refine Yields.ok ⟨owned.setNumber _, ?_⟩
  show Holds before outside _ ((item.setNumber _).blocks ++ rest)
  rw [Placed.blocks_setNumber]
  exact @Holds.deallocate _ _ _ { t.requested _ with buffer := buffer } _ asked

/-- What the functions do with their blocks, up to some fuel: an item comes back with
what has been added to it, or all of it has been given back.  The loops carry the
items that they have linked so far, which they return or give back as well. -/
structure AllLeave (library : CLibrary) (before : List HookCall) (outside : List Nat) (fuel : Nat) : Prop where
  value : ∀ item (t : Tracing) rest, Placed.Owned item -> item.Bare ->
    Holds before outside t (item.blocks ++ rest) ->
    Yields (parseValue library fuel item t) (Leaves before outside item rest) (fun _ => True)
  array : ∀ item (t : Tracing) rest, Placed.Owned item -> item.Bare ->
    Holds before outside t (item.blocks ++ rest) ->
    Yields (parseArray library fuel item t) (Leaves before outside item rest) (fun _ => True)
  object : ∀ item (t : Tracing) rest, Placed.Owned item -> item.Bare ->
    Holds before outside t (item.blocks ++ rest) ->
    Yields (parseObject library fuel item t) (Leaves before outside item rest) (fun _ => True)
  arrayLoop : ∀ head (t : Tracing) rest, (∀ item ∈ head, Placed.Owned item) ->
    Holds before outside t (Placed.blocksOf head ++ rest) ->
    Yields (parseArrayLoop library fuel head t) (LeavesList before outside head rest) (fun _ => True)
  objectLoop : ∀ head (t : Tracing) rest, (∀ item ∈ head, Placed.Owned item) ->
    Holds before outside t (Placed.blocksOf head ++ rest) ->
    Yields (parseObjectLoop library fuel head t) (LeavesList before outside head rest) (fun _ => True)

theorem parseValue_leaves {fuel : Nat} (below : AllLeave library before outside fuel)
    (owned : item.Owned) (bare : item.Bare) (holds : Holds before outside t (item.blocks ++ rest)) :
    Yields (parseValue library (fuel + 1) item t) (Leaves before outside item rest)
      (fun _ => True) := by
  have literal : ∀ base valueint count, Yields
      (do let buffer ← t.buffer.advance count
          .ok (some (item.setLiteral base valueint), { t with buffer := buffer }))
      (Leaves before outside item rest) (fun _ : Fault => True) := by
    intro base valueint count
    apply Yields.step
    intro buffer
    refine Yields.ok ⟨owned.setLiteral base valueint, ?_⟩
    rw [Placed.blocks_setLiteral]
    exact holds
  unfold parseValue
  apply Yields.step
  intro isNull
  refine Yields.ite (fun _ => literal _ _ _) (fun _ => ?_)
  apply Yields.step
  intro isFalse
  refine Yields.ite (fun _ => literal _ _ _) (fun _ => ?_)
  apply Yields.step
  intro isTrue
  refine Yields.ite (fun _ => literal _ _ _) (fun _ => ?_)
  refine Yields.ite (fun _ => Yields.ok holds) (fun _ => ?_)
  apply Yields.step
  intro byte
  refine Yields.ite (fun _ => parseString_value owned bare holds) (fun _ => ?_)
  refine Yields.ite (fun _ => parseNumber_leaves owned holds) (fun _ => ?_)
  refine Yields.ite (fun _ => below.array item t rest owned bare holds) (fun _ => ?_)
  exact Yields.ite (fun _ => below.object item t rest owned bare holds) (fun _ => Yields.ok holds)

/-- The end of a container: its list becomes the children, or is deleted.  Without the
bracket every block of the list goes back to the hooks, and the node of the container
stays with the caller. -/
theorem closing_leaves (owned : item.Owned) (bare : item.Bare) (base : BaseType) (closing : UInt8)
    {children : List Placed} (each : ∀ child ∈ children, child.Owned)
    (holds : Holds before outside t (Placed.blocksOf children ++ (item.blocks ++ rest))) :
    Yields (do
        if ← t.buffer.guardedByte closing then do
          let buffer ← t.buffer.advance 1
          .ok (some (item.finishContainer base children),
            { t with buffer := { buffer with depth := buffer.depth - 1 } })
        else .ok (none, delete children t))
      (Leaves before outside item rest) (fun _ : Fault => True) := by
  apply Yields.step
  intro closes
  refine Yields.ite (fun _ => ?_) (fun _ => Yields.ok (Holds.delete each holds))
  apply Yields.step
  intro buffer
  refine Yields.ok ⟨owned.finishContainer base each, ?_⟩
  rw [Placed.blocks_finishContainer bare, List.append_assoc]
  exact holds

theorem emptyContainer_leaves (owned : item.Owned) (bare : item.Bare) (base : BaseType)
    (holds : Holds before outside t (item.blocks ++ rest)) {buffer : ParseBuffer}
    {depth : ParseBuffer -> ParseBuffer} :
    Yields (do
        let buffer ← buffer.advance 1
        .ok (some (item.finishContainer base []), { t with buffer := depth buffer }))
      (Leaves before outside item rest) (fun _ : Fault => True) := by
  apply Yields.step
  intro buffer
  refine Yields.ok ⟨owned.finishContainer base (fun _ impossible => absurd impossible List.not_mem_nil), ?_⟩
  rw [Placed.blocks_finishContainer bare]
  exact holds

theorem parseArray_leaves {fuel : Nat} (below : AllLeave library before outside fuel)
    (owned : item.Owned) (bare : item.Bare) (holds : Holds before outside t (item.blocks ++ rest)) :
    Yields (parseArray library (fuel + 1) item t) (Leaves before outside item rest)
      (fun _ => True) := by
  unfold parseArray
  refine Yields.ite (fun _ => Yields.ok holds) (fun _ => ?_)
  apply Yields.step
  intro byte
  refine Yields.ite (fun _ => Yields.ok holds) (fun _ => ?_)
  apply Yields.step
  intro behind
  apply Yields.step
  intro start
  apply Yields.step
  intro isEmpty
  refine Yields.ite (fun _ => emptyContainer_leaves owned bare .array holds) (fun _ => ?_)
  refine Yields.ite (fun _ => Yields.step (fun _ => Yields.ok holds)) (fun _ => ?_)
  apply Yields.step
  intro first
  apply Yields.bind (below.arrayLoop [] { t with buffer := first } (item.blocks ++ rest)
    (fun _ impossible => absurd impossible List.not_mem_nil) holds) (fun _ _ => trivial)
  rintro ⟨_ | children, t⟩ leaves
  · exact Yields.ok leaves
  · exact closing_leaves owned bare .array 0x5D leaves.1 leaves.2

theorem parseObject_leaves {fuel : Nat} (below : AllLeave library before outside fuel)
    (owned : item.Owned) (bare : item.Bare) (holds : Holds before outside t (item.blocks ++ rest)) :
    Yields (parseObject library (fuel + 1) item t) (Leaves before outside item rest)
      (fun _ => True) := by
  unfold parseObject
  refine Yields.ite (fun _ => Yields.ok holds) (fun _ => ?_)
  apply Yields.step
  intro opens
  refine Yields.ite (fun _ => Yields.ok holds) (fun _ => ?_)
  apply Yields.step
  intro behind
  apply Yields.step
  intro start
  apply Yields.step
  intro isEmpty
  refine Yields.ite (fun _ => emptyContainer_leaves owned bare .object holds) (fun _ => ?_)
  refine Yields.ite (fun _ => Yields.step (fun _ => Yields.ok holds)) (fun _ => ?_)
  apply Yields.step
  intro first
  apply Yields.bind (below.objectLoop [] { t with buffer := first } (item.blocks ++ rest)
    (fun _ impossible => absurd impossible List.not_mem_nil) holds) (fun _ _ => trivial)
  rintro ⟨_ | children, t⟩ leaves
  · exact Yields.ok leaves
  · exact closing_leaves owned bare .object 0x7D leaves.1 leaves.2

/-- The blocks of a list with one more node at its end. -/
theorem blocksOf_snoc (head : List Placed) (item : Placed) (rest : List Nat) :
    Placed.blocksOf (head ++ [item]) ++ rest = Placed.blocksOf head ++ (item.blocks ++ rest) := by
  rw [Placed.blocksOf_append, Placed.blocksOf, Placed.blocksOf, List.append_nil, List.append_assoc]

theorem owned_snoc {head : List Placed} {item : Placed} (each : ∀ item ∈ head, item.Owned)
    (owned : item.Owned) : ∀ other ∈ head ++ [item], other.Owned := by
  intro other inside
  rcases List.mem_append.mp inside with inside | inside
  · exact each other inside
  · cases List.mem_singleton.mp inside
    exact owned

theorem listed {item : Placed} {head : List Placed} {t : Tracing}
    (holds : Holds before outside t (item.blocks ++ (Placed.blocksOf head ++ rest))) :
    Holds before outside t (Placed.blocksOf (head ++ [item]) ++ rest) := by
  rw [blocksOf_snoc]
  apply holds.perm
  rw [← List.append_assoc, ← List.append_assoc]
  exact List.perm_append_comm.append_right rest

/-- The node of an entry that fails is deleted with the nodes before it.
`cjson_delete` is called on the head of the list, which the node has joined by then. -/
theorem deletes {item : Placed} {head : List Placed} {t : Tracing} (each : ∀ item ∈ head, item.Owned)
    (owned : item.Owned) (holds : Holds before outside t (item.blocks ++ (Placed.blocksOf head ++ rest))) :
    Yields (.ok (none, delete (head ++ [item]) t)) (LeavesList before outside head rest)
      (fun _ : Fault => True) :=
  Yields.ok (Holds.delete (owned_snoc each owned) (listed holds))

/-- Behind an entry the list goes on, or ends with it.  The entry joins the list
before the loop is called again, so a later failure deletes it along with the others. -/
theorem continue_leaves {loop : List Placed -> Tracing -> Except Fault (Option (List Placed) × Tracing)}
    (loops : ∀ head t rest, (∀ item ∈ head, Placed.Owned item) ->
      Holds before outside t (Placed.blocksOf head ++ rest) ->
      Yields (loop head t) (LeavesList before outside head rest) (fun _ => True))
    {head : List Placed} {currentItem : Placed} (each : ∀ item ∈ head, item.Owned)
    (complete : currentItem.Owned)
    (holds : Holds before outside t (currentItem.blocks ++ (Placed.blocksOf head ++ rest))) :
    Yields (do
        let buffer ← bufferSkipWhitespace t.buffer
        if ← buffer.guardedByte 0x2C then do
          let (rest, t) ← loop (head ++ [currentItem]) { t with buffer := buffer }
          .ok (rest.map (currentItem :: ·), t)
        else .ok (some [currentItem], { t with buffer := buffer }))
      (LeavesList before outside head rest) (fun _ => True) := by
  apply Yields.step
  intro buffer
  apply Yields.step
  intro comma
  refine Yields.ite (fun _ => ?_) (fun _ => ?_)
  · apply Yields.bind (loops _ { t with buffer := buffer } _ (owned_snoc each complete) (listed holds))
      (fun _ _ => trivial)
    rintro ⟨_ | others, t⟩ leaves
    · exact leaves
    · refine ⟨List.forall_mem_cons.mpr ⟨complete, leaves.1⟩, ?_⟩
      have both := leaves.2
      rwa [List.append_assoc] at both
  · exact Yields.ok ⟨List.forall_mem_singleton.mpr complete, listed holds⟩

theorem parseArrayLoop_leaves {fuel : Nat} (below : AllLeave library before outside fuel)
    {head : List Placed} (each : ∀ item ∈ head, item.Owned)
    (holds : Holds before outside t (Placed.blocksOf head ++ rest)) :
    Yields (parseArrayLoop library (fuel + 1) head t) (LeavesList before outside head rest)
      (fun _ => True) := by
  unfold parseArrayLoop
  refine Yields.ite (fun denied => Yields.ok (Holds.delete each (holds.refused denied))) (fun given => ?_)
  have owned := Placed.owned_fresh t.calls.length
  apply Yields.step
  intro behind
  apply Yields.step
  intro start
  apply Yields.bind (below.value _ { t.requested nodeSize with buffer := start } _ owned (Placed.bare_fresh _)
    (holds.granted given)) (fun _ _ => trivial)
  rintro ⟨_ | currentItem, t⟩ leaves
  · exact deletes each owned leaves
  · exact continue_leaves below.arrayLoop each leaves.1 leaves.2

theorem parseObjectLoop_leaves {fuel : Nat} (below : AllLeave library before outside fuel)
    {head : List Placed} (each : ∀ item ∈ head, item.Owned)
    (holds : Holds before outside t (Placed.blocksOf head ++ rest)) :
    Yields (parseObjectLoop library (fuel + 1) head t) (LeavesList before outside head rest)
      (fun _ => True) := by
  unfold parseObjectLoop
  refine Yields.ite (fun denied => Yields.ok (Holds.delete each (holds.refused denied))) (fun given => ?_)
  have owned := Placed.owned_fresh t.calls.length
  have asked := holds.granted given
  refine Yields.ite (fun _ => deletes each owned asked) (fun _ => ?_)
  apply Yields.step
  intro behind
  apply Yields.step
  intro start
  apply Yields.bind (@parseString_leaves _ _ _ { t.requested nodeSize with buffer := start } _ asked)
    (fun _ _ => trivial)
  rintro ⟨named, after⟩ (⟨failed, left⟩ | ⟨key, output, read, left⟩)
  · cases failed
    exact deletes each owned left
  · cases read
    rcases Placed.swapName_fresh t.calls.length key output with ⟨owned, bare, blocks⟩
    have kept : Holds before outside after
        (key :: ((Placed.fresh t.calls.length).blocks ++ (Placed.blocksOf head ++ rest))) := left
    rw [← List.cons_append, ← blocks] at kept
    apply Yields.step
    intro atColon
    apply Yields.step
    intro colon
    refine Yields.ite (fun _ => deletes each owned kept) (fun _ => ?_)
    apply Yields.step
    intro behindColon
    apply Yields.step
    intro value
    apply Yields.bind (below.value _ { after with buffer := value } _ owned bare kept) (fun _ _ => trivial)
    rintro ⟨_ | currentItem, t⟩ leaves
    · exact deletes each owned leaves
    · exact continue_leaves below.objectLoop each leaves.1 leaves.2

theorem allLeave (library : CLibrary) (before : List HookCall) (outside : List Nat) (fuel : Nat) :
    AllLeave library before outside fuel := by
  induction fuel with
  | zero =>
      exact ⟨fun _ _ _ _ _ _ => trivial, fun _ _ _ _ _ _ => trivial, fun _ _ _ _ _ _ => trivial,
        fun _ _ _ _ _ => trivial, fun _ _ _ _ _ => trivial⟩
  | succ fuel below =>
      refine ⟨?_, ?_, ?_, ?_, ?_⟩
      · intro item t rest owned bare holds
        exact parseValue_leaves below owned bare holds
      · intro item t rest owned bare holds
        exact parseArray_leaves below owned bare holds
      · intro item t rest owned bare holds
        exact parseObject_leaves below owned bare holds
      · intro head t rest each holds
        exact parseArrayLoop_leaves below each holds
      · intro head t rest each holds
        exact parseObjectLoop_leaves below each holds

end Runs

/-! ## The entry point -/

/-- After a parse: the blocks of the tree are live, and what was live before.  Where
there is no tree, nothing has been added. -/
def LeavesTree (before : List HookCall) (outside : List Nat) : Option Placed × Tracing -> Prop
  | (none, t) => Holds before outside t outside
  | (some tree, t) => tree.Owned ∧ Holds before outside t (tree.blocks ++ outside)

theorem cjsonParseWithLengthOptsTraced_leaves (library : CLibrary) (hooks : Hooks) (content : Bytes)
    (bufferLength : Nat) (requireNullTerminated : Bool) {before : List HookCall} {outside : List Nat}
    (distinct : outside.Nodup) (named : ∀ block ∈ outside, block < before.length) :
    Yields (cjsonParseWithLengthOptsTraced library hooks content bufferLength requireNullTerminated before)
      (LeavesTree before outside) (fun _ => True) := by
  have start : ∀ buffer, Holds before outside ⟨buffer, before⟩ outside :=
    fun _ => ⟨[], outside, (List.append_nil _).symm, rfl, List.Perm.refl _, distinct, named⟩
  unfold cjsonParseWithLengthOptsTraced parseDocument
  refine Yields.ite (fun _ => Yields.ok (start _)) (fun _ => ?_)
  refine Yields.ite (fun denied => Yields.ok ((start _).refused denied)) (fun given => ?_)
  have owned := Placed.owned_fresh before.length
  have asked := (start _).granted given
  apply Yields.step
  intro found
  cases found with
  | none => exact Yields.ok (Holds.deleteItem owned asked)
  | some buffer =>
      apply Yields.step
      intro buffer
      apply Yields.bind ((allLeave library before outside _).value _
        { Tracing.requested ⟨⟨content, bufferLength, 0, 0, hooks⟩, before⟩ nodeSize with buffer := buffer }
        outside owned (Placed.bare_fresh _) asked) (fun _ _ => trivial)
      rintro ⟨_ | tree, t⟩ leaves
      · exact Yields.ok (Holds.deleteItem owned leaves)
      · refine Yields.ite (fun _ => ?_) (fun _ => Yields.ok leaves)
        apply Yields.step
        intro buffer
        apply Yields.step
        intro ended
        exact Yields.ite (fun _ => Yields.ok leaves)
          (fun _ => Yields.ok (@Holds.deleteItem _ _ _ { t with buffer := buffer } _ leaves.1 leaves.2))

/-- A parse, whatever the hooks answer: no pointer is released that is not live, and
in the end the blocks of the tree are live, each owned by one node, next to those
that were live before; without a tree only those are. -/
theorem parse_owns_its_blocks {library : CLibrary} (consumes : library.ConsumesAtMost) (hooks : Hooks)
    (content : Bytes) (requireNullTerminated : Bool) {before : List HookCall} {outside : List Nat}
    (history : replay 0 [] before = some outside) :
    ∃ result t, cjsonParseWithLengthOptsTraced library hooks content content.length requireNullTerminated
        before = .ok (result, t) ∧
      ∃ calls live, t.calls = before ++ calls ∧ replay before.length outside calls = some live ∧
        match result with
        | none => live.Perm outside
        | some tree => tree.Owned ∧ (tree.blocks ++ outside).Nodup ∧ live.Perm (tree.blocks ++ outside) := by
  rcases replay_named List.nodup_nil (fun _ impossible => absurd impossible List.not_mem_nil) history with
    ⟨distinct, named⟩
  rw [Nat.zero_add] at named
  have leaves := cjsonParseWithLengthOptsTraced_leaves library hooks content content.length
    requireNullTerminated distinct named
  have erases := cjsonParseWithLengthOptsTraced_erases library hooks content content.length
    requireNullTerminated before
  rcases cjsonParseWithLengthOpts_ends consumes hooks content requireNullTerminated with ⟨outcome, ran⟩
  rw [ran] at erases
  cases traced : cjsonParseWithLengthOptsTraced library hooks content content.length
      requireNullTerminated before with
  | error fault =>
      rw [traced] at erases
      cases erases
  | ok result =>
      rcases result with ⟨tree, t⟩
      rw [traced] at leaves
      cases tree with
      | none =>
          rcases leaves with ⟨calls, live, split, replayed, same, _, _⟩
          exact ⟨none, t, rfl, calls, live, split, replayed, same⟩
      | some tree =>
          rcases leaves with ⟨owned, calls, live, split, replayed, same, distinct, _⟩
          exact ⟨some tree, t, rfl, calls, live, split, replayed, owned, distinct, same⟩

/-- The text `{"a":["\n",null]}`. -/
def nestedText : Bytes :=
  [0x7B, 0x22, 0x61, 0x22, 0x3A, 0x5B, 0x22, 0x5C, 0x6E, 0x22, 0x2C, 0x6E, 0x75, 0x6C, 0x6C, 0x5D, 0x7D]

/-- The last node is refused, when a name, a string and two containers are there. -/
theorem parse_owns_its_blocks_refused :
    ∃ result t, cjsonParseWithLengthOptsTraced decimalLibrary ⟨fun call _ => call != 5, true⟩ nestedText 17 false
        [] = .ok (result, t) ∧
      ∃ calls live, t.calls = [] ++ calls ∧ replay 0 [] calls = some live ∧
        match result with
        | none => live.Perm []
        | some tree => tree.Owned ∧ (tree.blocks ++ []).Nodup ∧ live.Perm (tree.blocks ++ []) :=
  parse_owns_its_blocks decimalLibrary_consumesAtMost ⟨fun call _ => call != 5, true⟩ nestedText false rfl

end CJson
