import CJson.Layout

/-!
# Trees under construction

A function that builds a tree takes blocks that nobody else has, links them, and
returns the tree, or deletes what it has built so far.  In between the memory has
grown by the blocks of an unfinished tree, and everything that was there before
is as it was.
-/

namespace CJson

open Layout

namespace Memory

/-! ## New blocks -/

/-- The memory has grown by these blocks, and is unchanged elsewhere.  The blocks are
new, distinct and in use; all that was there before has kept its content, so that a
tree in the old memory is still the same tree. -/
structure Grows (memory after : Memory) (blocks : List Addr) : Prop where
  unused : memory.unused ≤ after.unused
  succeeds : memory.hooks.AlwaysSucceed -> after.hooks.AlwaysSucceed
  fresh : ∀ block ∈ blocks, memory.unused ≤ block
  live : ∀ block ∈ blocks, (after.cells block).isSome = true
  distinct : blocks.Nodup
  cells : ∀ block, block ∉ blocks -> after.cells block = memory.cells block

namespace Grows

variable {memory middle after : Memory} {first second blocks gone : List Addr} {block : Addr}

theorem refl (memory : Memory) : memory.Grows memory [] where
  unused := Nat.le_refl _
  succeeds := id
  fresh := List.forall_mem_nil _
  live := List.forall_mem_nil _
  distinct := List.nodup_nil
  cells _ _ := rfl

/-- What was there before is still there. -/
theorem kept (grows : memory.Grows after blocks) (before : block < memory.unused) :
    after.cells block = memory.cells block :=
  grows.cells block (fun inside => Nat.not_lt.mpr (grows.fresh block inside) before)

theorem found (grows : memory.Grows after blocks) {cell : Cell} (live : memory.cells block = some cell) :
    after.cells block = some cell :=
  (grows.kept (lt_unused live)).trans live

/-- Blocks that were made earlier are not among the new ones. -/
theorem outside (grows : memory.Grows after blocks) (live : (memory.cells block).isSome = true) :
    block ∉ blocks := by
  intro inside
  rcases Option.isSome_iff_exists.mp live with ⟨cell, found⟩
  exact Nat.not_lt.mpr (grows.fresh block inside) (lt_unused found)

theorem trans (grows : memory.Grows middle first) (more : middle.Grows after second) :
    memory.Grows after (first ++ second) where
  unused := Nat.le_trans grows.unused more.unused
  succeeds := more.succeeds ∘ grows.succeeds
  fresh := by
    intro block inside
    rcases List.mem_append.mp inside with inFirst | inSecond
    · exact grows.fresh block inFirst
    · exact Nat.le_trans grows.unused (more.fresh block inSecond)
  live := by
    intro block inside
    rcases List.mem_append.mp inside with inFirst | inSecond
    · rw [more.cells block (more.outside (grows.live block inFirst))]
      exact grows.live block inFirst
    · exact more.live block inSecond
  distinct := by
    apply List.nodup_append.mpr
    refine ⟨grows.distinct, more.distinct, ?_⟩
    rintro block inFirst _ inSecond rfl
    exact more.outside (grows.live block inFirst) inSecond
  cells := by
    intro block outside
    rw [List.mem_append, not_or] at outside
    exact (more.cells block outside.2).trans (grows.cells block outside.1)

theorem perm (grows : memory.Grows after first) (same : first.Perm second) : memory.Grows after second where
  unused := grows.unused
  succeeds := grows.succeeds
  fresh block inside := grows.fresh block (same.mem_iff.mpr inside)
  live block inside := grows.live block (same.mem_iff.mpr inside)
  distinct := same.nodup_iff.mp grows.distinct
  cells block outside := grows.cells block (fun inside => outside (same.mem_iff.mp inside))

/-- Writes to the new blocks. -/
theorem rewrite (grows : memory.Grows middle blocks) (unused : after.unused = middle.unused)
    (hooks : after.hooks = middle.hooks) (live : ∀ block ∈ blocks, (after.cells block).isSome = true)
    (cells : ∀ block, block ∉ blocks -> after.cells block = middle.cells block) :
    memory.Grows after blocks where
  unused := by
    rw [unused]
    exact grows.unused
  succeeds := by
    rw [hooks]
    exact grows.succeeds
  fresh := grows.fresh
  live := live
  distinct := grows.distinct
  cells block outside := (cells block outside).trans (grows.cells block outside)

/-- What has been made is released. -/
theorem freed (grows : memory.Grows middle blocks) (freed : middle.Freed after blocks) : memory.Grows after [] where
  unused := by
    rw [freed.unused]
    exact grows.unused
  succeeds := by
    rw [freed.hooks]
    exact grows.succeeds
  fresh := List.forall_mem_nil _
  live := List.forall_mem_nil _
  distinct := List.nodup_nil
  cells := by
    intro block _
    by_cases inside : block ∈ blocks
    · rw [freed.cells, if_pos inside, memory.fresh block (grows.fresh block inside)]
    · rw [freed.kept inside, grows.cells block inside]

theorem cells_eq (grows : memory.Grows after []) : after.cells = memory.cells :=
  funext (fun block => grows.cells block List.not_mem_nil)

theorem request (memory : Memory) (size : Nat) : memory.Grows (memory.request size).2 [] where
  unused := Nat.le_refl _
  succeeds := by
    intro succeeds
    show (memory.hooks.request size).2.AlwaysSucceed
    rw [Hooks.request_of_alwaysSucceed succeeds]
    exact succeeds
  fresh := List.forall_mem_nil _
  live := List.forall_mem_nil _
  distinct := List.nodup_nil
  cells _ _ := rfl

theorem allocate (memory : Memory) (cell : Cell) : memory.Grows (memory.allocate cell) [memory.unused] where
  unused := Nat.le_succ _
  succeeds := id
  fresh block inside := Nat.le_of_eq (List.mem_singleton.mp inside).symm
  live := by
    intro block inside
    rw [List.mem_singleton.mp inside]
    show (Function.update memory.cells memory.unused (some cell) memory.unused).isSome = true
    rw [Function.update_self]
    rfl
  distinct := List.nodup_singleton _
  cells := by
    intro block outside
    exact Function.update_of_ne (fun same => outside (List.mem_singleton.mpr same)) _ _

end Grows

theorem allocate_cells (memory : Memory) (cell : Cell) :
    (memory.allocate cell).cells memory.unused = some cell :=
  Function.update_self _ _ _

theorem request_granted {memory : Memory} {size : Nat} (refused : (memory.request size).1 = false) :
    ¬ memory.hooks.AlwaysSucceed := by
  intro succeeds
  have granted : (memory.hooks.request size).1 = true := by rw [Hooks.request_of_alwaysSucceed succeeds]
  exact Bool.false_ne_true (refused.symm.trans granted)

/-- `new_item` makes an empty node, or the request was refused.  The second case is
one that a hook which always succeeds does not come to. -/
theorem newItem_grows (memory : Memory) :
    (∃ after, memory.newItem = (none, after) ∧ memory.Grows after [] ∧ ¬ memory.hooks.AlwaysSucceed) ∨
      ∃ node after, memory.newItem = (some node, after) ∧ memory.Grows after [node] ∧
        after.cells node = some (.node {}) := by
  cases granted : (memory.request nodeSize).1 with
  | false =>
      left
      refine ⟨(memory.request nodeSize).2, ?_, Grows.request memory nodeSize, request_granted granted⟩
      show (if (memory.request nodeSize).1 then _ else _) = _
      rw [granted]
      rfl
  | true =>
      right
      refine ⟨memory.unused, (memory.request nodeSize).2.allocate (.node {}), ?_, ?_, allocate_cells _ _⟩
      · show (if (memory.request nodeSize).1 then _ else _) = _
        rw [granted]
        rfl
      · exact (Grows.request memory nodeSize).trans (Grows.allocate _ _)

/-- A copy of a string, if there is memory for it.  The copy is a block of its own
that holds the bytes up to the terminator and nothing else; without it the memory has
not grown, and either there was nothing to copy or the hooks do not always succeed. -/
def Copied (memory : Memory) (string : Option CharPointer) : Option CharPointer × Memory -> Prop
  | (none, after) => memory.Grows after [] ∧ (string = none ∨ ¬ memory.hooks.AlwaysSucceed)
  | (some copy, after) => memory.Grows after [copy.block] ∧ copy.offset = 0 ∧
      ∃ content, memory.cString string = .ok content ∧
        after.cells copy.block = some (.text (content ++ [0]))

theorem strdup_eq {memory : Memory} {string : Option CharPointer} {content : Bytes}
    (reads : memory.cString string = .ok content) :
    memory.strdup string = .ok (if (memory.request (content.length + 1)).1 then
      (some ⟨(memory.request (content.length + 1)).2.unused, 0⟩,
        (memory.request (content.length + 1)).2.allocate (.text (content ++ [0])))
      else (none, (memory.request (content.length + 1)).2)) := by
  cases string with
  | none => cases reads
  | some pointer =>
      unfold strdup
      rw [if_neg (by simp), reads, Except.ok_bind]
      cases granted : (memory.request (content.length + 1)).1 with
      | false =>
          show (if (memory.request (content.length + 1)).1 then _ else _) = _
          rw [granted]
          rfl
      | true =>
          show (if (memory.request (content.length + 1)).1 then _ else _) = _
          rw [granted]
          rfl

/-- `cjson_strdup` needs a C string. -/
theorem strdup_returns {memory : Memory} {string : Option CharPointer}
    (readable : string = none ∨ ∃ content, memory.cString string = .ok content) :
    Returns (memory.strdup string) (memory.Copied string) := by
  cases string with
  | none => exact Returns.ok ⟨Grows.refl memory, Or.inl rfl⟩
  | some pointer =>
      rcases readable with impossible | ⟨content, reads⟩
      · cases impossible
      rw [strdup_eq reads]
      apply Returns.ok
      cases granted : (memory.request (content.length + 1)).1 with
      | false => exact ⟨Grows.request memory _, Or.inr (request_granted granted)⟩
      | true => exact ⟨(Grows.request memory _).trans (Grows.allocate _ _), rfl, content, reads, allocate_cells _ _⟩

theorem strdup_ensures (memory : Memory) (string : Option CharPointer) :
    Ensures (memory.strdup string) (memory.Copied string) := by
  cases string with
  | none => exact Yields.of_returns (strdup_returns (Or.inl rfl))
  | some pointer =>
      cases reads : memory.cString (some pointer) with
      | ok content => exact Yields.of_returns (strdup_returns (Or.inr ⟨content, reads⟩))
      | error fault =>
          unfold strdup
          rw [if_neg (by simp), reads]
          exact Ensures.error

end Memory

/-! ## Links between the children -/

mutual

/-- Every child list of the tree is well linked: each node knows its neighbours, the
first one knows the last, and the last one is followed by nothing. -/
def Layout.Linked (memory : Memory) : Layout -> Prop
  | mk _ _ _ children =>
      memory.links.WellLinked (children.map Layout.node).head? (children.map Layout.node) ∧
        Layout.AllLinked memory children

def Layout.AllLinked (memory : Memory) : List Layout -> Prop
  | [] => True
  | layout :: rest => layout.Linked memory ∧ Layout.AllLinked memory rest

end

namespace Layout

/-- The blocks of a tree but for its root. -/
def inner : Layout -> List Addr
  | mk _ valuestring string children => valuestring.toList ++ (string.toList ++ blocksOf children)

theorem blocks_eq (layout : Layout) : layout.blocks = layout.node :: layout.inner := by
  cases layout
  rfl

theorem allLinked_iff {memory : Memory} {layouts : List Layout} :
    AllLinked memory layouts ↔ ∀ layout ∈ layouts, layout.Linked memory := by
  induction layouts with
  | nil => exact iff_of_true trivial (fun layout inside => absurd inside List.not_mem_nil)
  | cons layout layouts hypothesis => rw [AllLinked, hypothesis, List.forall_mem_cons]

/-- The links below a root depend on the blocks below it. -/
theorem linked_congr_all {memory after : Memory} :
    (∀ layout : Layout, layout.Linked memory -> (∀ block ∈ layout.inner, after.cells block = memory.cells block) ->
      layout.Linked after) ∧
    ∀ layouts, AllLinked memory layouts ->
      (∀ block ∈ blocksOf layouts, after.cells block = memory.cells block) -> AllLinked after layouts := by
  apply Layout.induction
  · rintro node valuestring string children below ⟨linked, inner⟩ same
    have children : ∀ block ∈ blocksOf children, after.cells block = memory.cells block := by
      intro block inside
      exact same block (List.mem_append_right _ (List.mem_append_right _ inside))
    constructor
    · exact linked.congr (fun block inside => Memory.links_congr (children block (nodes_subset_blocksOf inside)))
    · exact below inner children
  · intro _ _
    trivial
  · rintro layout rest one many ⟨first, others⟩ same
    constructor
    · apply one first
      intro block inside
      apply same block
      rw [blocksOf, blocks_eq]
      exact List.mem_append_left _ (List.mem_cons_of_mem _ inside)
    · exact many others (fun block inside => same block (List.mem_append_right _ inside))

theorem Linked.congr {memory after : Memory} {layout : Layout} (linked : layout.Linked memory)
    (same : ∀ block ∈ layout.inner, after.cells block = memory.cells block) : layout.Linked after :=
  linked_congr_all.1 layout linked same

theorem AllLinked.congr {memory after : Memory} {layouts : List Layout} (linked : AllLinked memory layouts)
    (same : ∀ block ∈ blocksOf layouts, after.cells block = memory.cells block) : AllLinked after layouts :=
  linked_congr_all.2 layouts linked same

/-- Of the tree, at most the links of its root have changed.  This is what attaching a
tree to a list does to it, and to the tree that was the last one before. -/
structure Kept (memory after : Memory) (layout : Layout) : Prop where
  root : ∀ record, memory.cells layout.node = some (.node record) ->
    ∃ next prev, after.cells layout.node = some (.node { record with next := next, prev := prev })
  inner : ∀ block ∈ layout.inner, after.cells block = memory.cells block

/-- Nothing of the tree has changed. -/
theorem Kept.of_same {memory after : Memory} {layout : Layout}
    (same : ∀ block ∈ layout.blocks, after.cells block = memory.cells block) : layout.Kept memory after where
  root record found := ⟨record.next, record.prev, (same _ layout.node_mem_blocks).trans found⟩
  inner block inside := by
    apply same
    rw [blocks_eq]
    exact List.mem_cons_of_mem _ inside

theorem Kept.trans {memory middle after : Memory} {layout : Layout} (first : layout.Kept memory middle)
    (second : layout.Kept middle after) : layout.Kept memory after where
  root := by
    intro record found
    rcases first.root record found with ⟨next, prev, between⟩
    rcases second.root _ between with ⟨last, start, ends⟩
    exact ⟨last, start, ends⟩
  inner block inside := (second.inner block inside).trans (first.inner block inside)

theorem Holds.kept {memory after : Memory} {layout : Layout} (holds : layout.Holds memory)
    (kept : layout.Kept memory after) : layout.Holds after := by
  cases layout with
  | mk node valuestring string children =>
      rcases holds with ⟨⟨record, held, head⟩, chain, holds⟩
      rcases kept.root record held.cell with ⟨next, prev, cell⟩
      have below : ∀ block ∈ blocksOf children, after.cells block = memory.cells block := by
        intro block inside
        exact kept.inner block (List.mem_append_right _ (List.mem_append_right _ inside))
      refine ⟨⟨_, held.congr cell rfl rfl rfl ?_, head⟩, chain_congr chain below, holds.congr below⟩
      intro block inside
      apply kept.inner
      show block ∈ valuestring.toList ++ (string.toList ++ blocksOf children)
      rw [← List.append_assoc]
      exact List.mem_append_left _ inside

/-- The roots of trees in memory are nodes. -/
theorem AllHold.records {memory : Memory} {layouts : List Layout} (holds : AllHold memory layouts) :
    ∀ root ∈ layouts.map node, ∃ record, memory.cells root = some (.node record) := by
  intro root inside
  rcases List.mem_map.mp inside with ⟨layout, member, rfl⟩
  cases layout with
  | mk node valuestring string children =>
      rcases allHold_iff.mp holds _ member with ⟨⟨record, held, _⟩, _⟩
      exact ⟨record, held.cell⟩

/-- A block below a root is no root. -/
theorem inner_not_node {layouts : List Layout} (distinct : (blocksOf layouts).Nodup) {layout : Layout}
    (member : layout ∈ layouts) {block : Addr} (inside : block ∈ layout.inner) :
    block ∉ layouts.map node := by
  induction layouts with
  | nil => cases member
  | cons first layouts hypothesis =>
      rcases List.nodup_append.mp distinct with ⟨one, rest, apart⟩
      rw [List.map_cons, List.mem_cons, not_or]
      rcases List.mem_cons.mp member with rfl | later
      · constructor
        · rintro rfl
          rw [blocks_eq] at one
          exact (List.nodup_cons.mp one).1 inside
        · intro again
          refine apart block ?_ block (nodes_subset_blocksOf again) rfl
          rw [blocks_eq]
          exact List.mem_cons_of_mem _ inside
      · constructor
        · rintro rfl
          refine apart _ first.node_mem_blocks first.node (mem_blocksOf.mpr ⟨layout, later, ?_⟩) rfl
          rw [blocks_eq]
          exact List.mem_cons_of_mem _ inside
        · exact hypothesis rest later

end Layout

namespace Memory

/-- At most the links of these nodes have changed.  No block is new, none is gone, and
nothing has been asked of the hooks. -/
structure Relinks (memory after : Memory) (nodes : List Addr) : Prop where
  unused : after.unused = memory.unused
  hooks : after.hooks = memory.hooks
  records : ∀ node ∈ nodes, ∀ record, memory.cells node = some (.node record) ->
    ∃ next prev, after.cells node = some (.node { record with next := next, prev := prev })
  others : ∀ block, block ∉ nodes -> after.cells block = memory.cells block

theorem Relinks.trans {memory middle after : Memory} {nodes : List Addr} (first : memory.Relinks middle nodes)
    (second : middle.Relinks after nodes) : memory.Relinks after nodes where
  unused := second.unused.trans first.unused
  hooks := second.hooks.trans first.hooks
  records := by
    intro node inside record found
    rcases first.records node inside record found with ⟨next, prev, between⟩
    rcases second.records node inside _ between with ⟨last, start, ends⟩
    exact ⟨last, start, ends⟩
  others block outside := (second.others block outside).trans (first.others block outside)

theorem relinks_store {memory : Memory} {nodes : List Addr} {node : Addr} {record : Record} (inside : node ∈ nodes)
    (found : memory.cells node = some (.node record)) (next prev : Pointer) :
    memory.Relinks (memory.store node (some (.node { record with next := next, prev := prev }))) nodes where
  unused := rfl
  hooks := rfl
  records := by
    intro other _ held live
    rw [store_cells found]
    by_cases same : other = node
    · rw [same, found] at live
      cases live
      rw [same, Function.update_self]
      exact ⟨next, prev, rfl⟩
    · rw [Function.update_of_ne same]
      exact ⟨held.next, held.prev, live⟩
  others := by
    intro other outside
    rw [store_cells found, Function.update_of_ne]
    rintro rfl
    exact outside inside

/-- Trees whose roots are linked otherwise. -/
theorem Relinks.kept {memory after : Memory} {layouts : List Layout}
    (relinks : memory.Relinks after (layouts.map Layout.node)) (distinct : (blocksOf layouts).Nodup) :
    ∀ layout ∈ layouts, layout.Kept memory after := by
  intro layout member
  constructor
  · exact relinks.records layout.node (List.mem_map_of_mem member)
  · intro block inside
    exact relinks.others block (inner_not_node distinct member inside)

theorem store_next_links {memory : Memory} {node : Addr} {record : Record}
    (found : memory.cells node = some (.node record)) (target : Pointer) :
    (memory.store node (some (.node { record with next := target }))).links = memory.links.setNext node target := by
  rw [store_links found]
  show (memory.links.setNext node target).setPrev node record.prev = memory.links.setNext node target
  rw [← links_prev found]
  exact congrArg (Links.mk _) (Function.update_eq_self node memory.links.prev)

theorem store_prev_links {memory : Memory} {node : Addr} {record : Record}
    (found : memory.cells node = some (.node record)) (target : Pointer) :
    (memory.store node (some (.node { record with prev := target }))).links = memory.links.setPrev node target := by
  rw [store_links found]
  show (memory.links.setNext node record.next).setPrev node target = memory.links.setPrev node target
  rw [← links_next found]
  exact congrArg (Links.mk · _) (Function.update_eq_self node memory.links.next)

/-! ## Unfinished trees -/

/-- A tree that has been made, in blocks of its own.  It is not linked to anything,
and whatever was in memory before is untouched: the two facts that let it be attached
somewhere without looking at it again. -/
structure Made (memory after : Memory) (layout : Layout) : Prop where
  grows : memory.Grows after layout.blocks
  holds : layout.Holds after
  linked : layout.Linked after
  next : after.links.next layout.node = none
  prev : after.links.prev layout.node = none

/-- Deleting what has been made. -/
theorem Grows.discard {before memory : Memory} {layout : Layout} (grows : before.Grows memory layout.blocks)
    (holds : layout.Holds memory) (next : memory.links.next layout.node = none) (safe : Prop) :
    Completes safe (fun fuel => memory.cjsonDelete fuel (some layout.node)) (fun after => before.Grows after []) := by
  have chain : memory.links.Chain ([layout].map Layout.node) none := ⟨rfl, next, trivial⟩
  have all : blocksOf [layout] = layout.blocks := List.append_nil _
  apply (cjsonDelete_completes chain ⟨holds, trivial⟩ (all ▸ grows.distinct)).mono
  intro after freed
  exact grows.freed (all ▸ freed)

/-- The parts of a tree, in blocks of their own: a node, and the trees that are its
children.  The node is in its cell, but which of the children it points to is not said
here; this is a tree that is being made. -/
structure Parts (before memory : Memory) (node : Addr) (valuestring string : Option Addr) (children : List Layout)
    (record : Record) : Prop where
  grows : before.Grows memory (Layout.mk node valuestring string children).blocks
  held : memory.Held node valuestring string record
  holds : AllHold memory children
  linked : AllLinked memory children

/-- A node that nothing points at, with the children that it has so far: linked, but
the first one does not know the last.  It is the invariant of the loop that copies
children, which sets `head.prev` only when it has come to the end. -/
structure Growing (before memory : Memory) (node : Addr) (valuestring string : Option Addr) (children : List Layout)
    (record : Record) : Prop extends Parts before memory node valuestring string children record where
  next : record.next = none
  prev : record.prev = none
  child : record.child = (children.map Layout.node).head?
  run : memory.links.Run none (children.map Layout.node) none

/-- Fields of a new node are written. -/
theorem Grows.store {memory middle : Memory} {blocks : List Addr} {node : Addr} {record : Record}
    (grows : memory.Grows middle blocks) (inside : node ∈ blocks) (found : middle.cells node = some (.node record))
    (other : Record) : memory.Grows (middle.store node (some (.node other))) blocks := by
  have cells := store_cells found (some (.node other))
  refine grows.rewrite rfl rfl ?_ ?_
  · intro block member
    rw [cells]
    by_cases same : block = node
    · rw [same, Function.update_self]
      rfl
    · rw [Function.update_of_ne same]
      exact grows.live block member
  · intro block outside
    rw [cells, Function.update_of_ne]
    rintro rfl
    exact outside inside

theorem Relinks.grows {memory middle after : Memory} {nodes blocks : List Addr} (relinks : middle.Relinks after nodes)
    (inside : nodes ⊆ blocks) (grows : memory.Grows middle blocks)
    (records : ∀ node ∈ nodes, ∃ record, middle.cells node = some (.node record)) :
    memory.Grows after blocks := by
  apply grows.rewrite relinks.unused relinks.hooks
  · intro block member
    by_cases linked : block ∈ nodes
    · rcases records block linked with ⟨record, found⟩
      rcases relinks.records block linked record found with ⟨next, prev, cell⟩
      rw [cell]
      rfl
    · rw [relinks.others block linked]
      exact grows.live block member
  · intro block outside
    exact relinks.others block (fun linked => outside (inside linked))

variable {before memory after : Memory} {node : Addr} {valuestring string : Option Addr} {children : List Layout}
  {record : Record} {layout : Layout}

namespace Parts

theorem node_outside (parts : Parts before memory node valuestring string children record) :
    ∀ block ∈ blocksOf children, block ≠ node := by
  have distinct := parts.grows.distinct
  rw [blocks] at distinct
  rintro block inside rfl
  exact (List.nodup_cons.mp distinct).1 (List.mem_append_right _ (List.mem_append_right _ inside))

theorem strings_outside (parts : Parts before memory node valuestring string children record) :
    ∀ block ∈ valuestring.toList ++ string.toList, block ≠ node ∧ block ∉ blocksOf children := by
  have distinct := parts.grows.distinct
  rw [blocks, ← List.append_assoc] at distinct
  rcases List.nodup_cons.mp distinct with ⟨nodeOut, distinct⟩
  intro block inside
  constructor
  · rintro rfl
    exact nodeOut (List.mem_append_left _ inside)
  · intro below
    exact (List.nodup_append.mp distinct).2.2 block inside block below rfl

theorem distinct (parts : Parts before memory node valuestring string children record) :
    (blocksOf children).Nodup := by
  have distinct := parts.grows.distinct
  rw [blocks, ← List.append_assoc] at distinct
  exact (List.nodup_append.mp (List.nodup_cons.mp distinct).2).2.1

/-- Another tree has been made. -/
theorem add (parts : Parts before memory node valuestring string children record) (made : memory.Made after layout) :
    Parts before after node valuestring string (children ++ [layout]) record ∧
      ∀ block ∈ (Layout.mk node valuestring string children).blocks, after.cells block = memory.cells block := by
  have last : blocksOf [layout] = layout.blocks := List.append_nil _
  have concat : (Layout.mk node valuestring string (children ++ [layout])).blocks =
      (Layout.mk node valuestring string children).blocks ++ layout.blocks := by
    rw [blocks, blocks, blocksOf_append, last]
    simp only [List.cons_append, List.append_assoc]
  have same : ∀ block ∈ (Layout.mk node valuestring string children).blocks,
      after.cells block = memory.cells block := by
    intro block inside
    exact made.grows.cells block (made.grows.outside (parts.grows.live block inside))
  have below : ∀ block ∈ blocksOf children, after.cells block = memory.cells block := by
    intro block inside
    exact same block (mem_blocks_of_children inside)
  refine ⟨⟨concat ▸ parts.grows.trans made.grows, ?_, ?_, ?_⟩, same⟩
  · apply parts.held.congr ((same node List.mem_cons_self).trans parts.held.cell) rfl rfl rfl
    intro block inside
    exact same block (mem_blocks_of_strings inside)
  · rw [allHold_iff, List.forall_mem_append, List.forall_mem_singleton]
    exact ⟨allHold_iff.mp (parts.holds.congr below), made.holds⟩
  · rw [allLinked_iff, List.forall_mem_append, List.forall_mem_singleton]
    exact ⟨allLinked_iff.mp (parts.linked.congr below), made.linked⟩

/-- The parts stay what they are when the children are linked. -/
theorem relinks (parts : Parts before memory node valuestring string children record)
    (relinks : memory.Relinks after (children.map Layout.node)) :
    Parts before after node valuestring string children record ∧ ∀ done ∈ children, done.Kept memory after := by
  have kept := relinks.kept parts.distinct
  have nodesIn : children.map Layout.node ⊆ (Layout.mk node valuestring string children).blocks := by
    intro block linked
    exact mem_blocks_of_children (nodes_subset_blocksOf linked)
  refine ⟨⟨relinks.grows nodesIn parts.grows parts.holds.records, ?_, ?_, ?_⟩, kept⟩
  · refine parts.held.congr ?_ rfl rfl rfl ?_
    · rw [relinks.others node (fun linked => parts.node_outside node (nodes_subset_blocksOf linked) rfl)]
      exact parts.held.cell
    · intro block inside
      exact relinks.others block (fun linked => (parts.strings_outside block inside).2 (nodes_subset_blocksOf linked))
  · exact allHold_iff.mpr (fun done member => (allHold_iff.mp parts.holds done member).kept (kept done member))
  · exact allLinked_iff.mpr (fun done member =>
      (allLinked_iff.mp parts.linked done member).congr (kept done member).inner)

/-- The node gets its first child. -/
theorem first (parts : Parts before memory node valuestring string children record) (target : Pointer) :
    Parts before (memory.store node (some (.node { record with child := target }))) node valuestring string children
        { record with child := target } ∧
      ∀ block, block ≠ node ->
        (memory.store node (some (.node { record with child := target }))).cells block = memory.cells block := by
  have cells := store_cells parts.held.cell (some (.node { record with child := target }))
  have elsewhere : ∀ block, block ≠ node ->
      (memory.store node (some (.node { record with child := target }))).cells block = memory.cells block := by
    intro block different
    rw [cells, Function.update_of_ne different]
  have below : ∀ block ∈ blocksOf children,
      (memory.store node (some (.node { record with child := target }))).cells block = memory.cells block := by
    intro block inside
    exact elsewhere block (parts.node_outside block inside)
  refine ⟨⟨parts.grows.store List.mem_cons_self parts.held.cell _, ?_, parts.holds.congr below,
    parts.linked.congr below⟩, elsewhere⟩
  refine parts.held.congr ?_ rfl rfl rfl ?_
  · rw [cells, Function.update_self]
  · intro block inside
    exact elsewhere block (parts.strings_outside block inside).1

end Parts

namespace Growing

/-- Giving up. -/
theorem discard (growing : Growing before memory node valuestring string children record) (safe : Prop) :
    Completes safe (fun fuel => memory.cjsonDelete fuel (some node)) (fun after => before.Grows after []) := by
  apply growing.grows.discard
  · exact ⟨⟨record, growing.held, growing.child⟩, growing.run.chain, growing.holds⟩
  · exact (links_next growing.held.cell).trans growing.next

/-- A request that was refused changes nothing. -/
theorem unchanged (growing : Growing before memory node valuestring string children record)
    (grows : memory.Grows after []) : Growing before after node valuestring string children record := by
  have same : ∀ block, after.cells block = memory.cells block := congrFun grows.cells_eq
  have all := growing.grows.trans grows
  rw [List.append_nil] at all
  refine ⟨⟨all, ?_, growing.holds.congr (fun block _ => same block),
    growing.linked.congr (fun block _ => same block)⟩,
    growing.next, growing.prev, growing.child, growing.run.congr (fun block _ => links_congr (same block))⟩
  exact growing.held.congr ((same node).trans growing.held.cell) rfl rfl rfl (fun block _ => same block)

/-- A tree has been put behind the children: their links may have changed, and that is
all.  The strings of the node are in blocks of their own and are mentioned because the
new links are written to cells. -/
structure Attached (memory after final : Memory) (valuestring string : Option Addr) (children : List Layout)
    (layout : Layout) : Prop where
  done : ∀ done ∈ children, done.Kept memory final
  last : layout.Kept after final
  strings : ∀ block ∈ valuestring.toList ++ string.toList, final.cells block = memory.cells block

/-- A finished tree becomes the first child; the tree itself stays as it is. -/
theorem attach_first (growing : Growing before memory node valuestring string [] record)
    (made : memory.Made after layout) :
    Returns (after.attachChild (some node) none (some layout.node)) fun final =>
      Growing before final node valuestring string [layout] { record with child := some layout.node } ∧
      Attached memory after final valuestring string [] layout := by
  rcases growing.toParts.add made with ⟨both, same⟩
  rcases both.first (some layout.node) with ⟨parts, elsewhere⟩
  have apart : ∀ block ∈ layout.blocks, block ≠ node := by
    intro block inside
    exact both.node_outside block (mem_blocksOf.mpr ⟨layout, List.mem_cons_self, inside⟩)
  have root := elsewhere layout.node (apart _ layout.node_mem_blocks)
  show Returns (after.modify (some node) (fun record => { record with child := some layout.node })) _
  rw [modify_eq both.held.cell]
  apply Returns.ok
  refine ⟨⟨parts, growing.next, growing.prev, rfl, ?_⟩, List.forall_mem_nil _, ?_, ?_⟩
  · have links := links_congr root
    exact ⟨links.2.trans made.prev, links.1.trans made.next, trivial⟩
  · exact Kept.of_same (fun block inside => elsewhere block (apart block inside))
  · intro block inside
    rw [elsewhere block (both.strings_outside block inside).1]
    exact same block (mem_blocks_of_strings inside)

/-- A finished tree is linked behind the last child: that child gets a `next`, the new
one a `prev`, and nothing else changes. -/
theorem attach_behind (growing : Growing before memory node valuestring string children record)
    (made : memory.Made after layout) {last : Addr} (isLast : (children.map Layout.node).getLast? = some last) :
    Returns (after.attachChild (some node) (some last) (some layout.node)) fun final =>
      Growing before final node valuestring string (children ++ [layout]) record ∧
      Attached memory after final valuestring string children layout := by
  rcases growing.toParts.add made with ⟨both, same⟩
  have inside : last ∈ children.map Layout.node := List.mem_of_getLast? isLast
  have nodes : (children ++ [layout]).map Layout.node = children.map Layout.node ++ [layout.node] := List.map_append
  have apart : (children.map Layout.node ++ [layout.node]).Nodup := nodes ▸ nodup_nodes both.distinct
  have fresh : layout.node ∉ children.map Layout.node := fun again =>
    (List.nodup_append.mp apart).2.2 _ again _ List.mem_cons_self rfl
  have different : layout.node ≠ last := fun same => fresh (same ▸ inside)
  have lastIn : last ∈ (children ++ [layout]).map Layout.node := nodes ▸ List.mem_append_left _ inside
  have newIn : layout.node ∈ (children ++ [layout]).map Layout.node :=
    nodes ▸ List.mem_append_right _ List.mem_cons_self
  rcases both.holds.records last lastIn with ⟨previous, lastCell⟩
  rcases both.holds.records layout.node newIn with ⟨root, newCell⟩
  have newStill : (after.store last (some (.node { previous with next := some layout.node }))).cells layout.node =
      some (.node root) := by
    rw [store_cells lastCell, Function.update_of_ne different]
    exact newCell
  have relinks := (relinks_store lastIn lastCell (some layout.node) previous.prev).trans
    (relinks_store newIn newStill root.next (some last))
  rcases both.relinks relinks with ⟨parts, kept⟩
  show Returns (after.suffixObject (some last) (some layout.node)) _
  unfold suffixObject
  rw [modify_eq lastCell, Except.ok_bind, modify_eq newStill]
  apply Returns.ok
  refine ⟨⟨parts, growing.next, growing.prev, ?_, ?_⟩, ?_, ?_, ?_⟩
  · rw [nodes, List.head?_append_of_ne_nil _ (List.ne_nil_of_mem inside)]
    exact growing.child
  · have run : after.links.Run none (children.map Layout.node) none := growing.run.congr (fun node inside =>
      links_congr (same node (mem_blocks_of_children (nodes_subset_blocksOf inside))))
    rw [store_prev_links newStill, store_next_links lastCell, nodes]
    exact run.append isLast (List.nodup_append.mp apart).1 fresh made.next
  · intro done member
    apply Kept.trans _ (kept done (List.mem_append_left _ member))
    apply Kept.of_same
    intro block inside
    exact same block (mem_blocks_of_children (mem_blocksOf.mpr ⟨done, member, inside⟩))
  · exact kept layout (List.mem_append_right _ List.mem_cons_self)
  · intro block inside
    rw [relinks.others block (fun linked => (both.strings_outside block inside).2 (nodes_subset_blocksOf linked))]
    exact same block (mem_blocks_of_strings inside)

/-- A finished tree becomes the last child. -/
theorem attach (growing : Growing before memory node valuestring string children record)
    (made : memory.Made after layout) :
    Returns (after.attachChild (some node) (children.map Layout.node).getLast? (some layout.node)) fun final =>
      (∃ child, Growing before final node valuestring string (children ++ [layout]) { record with child := child }) ∧
      Attached memory after final valuestring string children layout := by
  cases isLast : (children.map Layout.node).getLast? with
  | none =>
      have empty : children = [] := List.map_eq_nil_iff.mp (List.getLast?_eq_none_iff.mp isLast)
      subst empty
      apply (growing.attach_first made).mono
      rintro final ⟨grown, kept⟩
      exact ⟨⟨_, grown⟩, kept⟩
  | some last =>
      apply (growing.attach_behind made isLast).mono
      rintro final ⟨grown, kept⟩
      exact ⟨⟨record.child, grown⟩, kept⟩

/-- A node without children is a finished tree. -/
theorem made (growing : Growing before memory node valuestring string [] record) :
    before.Made memory (Layout.mk node valuestring string []) where
  grows := growing.grows
  holds := ⟨⟨record, growing.held, growing.child⟩, trivial, trivial⟩
  linked := ⟨Links.wellLinked_nil, trivial⟩
  next := (links_next growing.held.cell).trans growing.next
  prev := (links_prev growing.held.cell).trans growing.prev

/-- The first child gets to know the last one, and the tree is finished.  From then on
its root may be handed out. -/
theorem close (growing : Growing before memory node valuestring string children record) :
    Returns (memory.closeChildren (some node) (children.map Layout.node).getLast?) fun after =>
      before.Made after (Layout.mk node valuestring string children) ∧ after.cells node = some (.node record) ∧
      (∀ done ∈ children, done.Kept memory after) ∧
      ∀ block ∈ valuestring.toList ++ string.toList, after.cells block = memory.cells block := by
  unfold closeChildren
  rw [read_eq growing.held.cell, Except.ok_bind, growing.child]
  cases isFirst : (children.map Layout.node).head? with
  | none =>
      have empty : children = [] := List.map_eq_nil_iff.mp (List.head?_eq_none_iff.mp isFirst)
      subst empty
      exact Returns.ok ⟨growing.made, growing.held.cell, List.forall_mem_nil _, fun _ _ => rfl⟩
  | some first =>
      rcases List.head?_eq_some_iff.mp isFirst with ⟨rest, nodes⟩
      have inside : first ∈ children.map Layout.node := List.mem_of_head? isFirst
      rcases growing.holds.records first inside with ⟨leading, found⟩
      have relinks := relinks_store inside found leading.next (children.map Layout.node).getLast?
      rcases growing.toParts.relinks relinks with ⟨parts, kept⟩
      have linked : (memory.store first (some (.node { leading with
          prev := (children.map Layout.node).getLast? }))).links.Run
          (children.map Layout.node).getLast? (children.map Layout.node) none := by
        rw [store_prev_links found]
        have run := growing.run
        have nodup := nodup_nodes growing.distinct
        rw [nodes] at run nodup ⊢
        exact run.setFirst nodup _
      show Returns (memory.modify (some first) _) _
      rw [modify_eq found]
      apply Returns.ok
      refine ⟨⟨parts.grows, ⟨⟨record, parts.held, growing.child⟩, linked.chain, parts.holds⟩,
        ⟨⟨rfl, linked⟩, parts.linked⟩, ?_, ?_⟩, parts.held.cell, kept, ?_⟩
      · exact (links_next parts.held.cell).trans growing.next
      · exact (links_prev parts.held.cell).trans growing.prev
      · intro block inside
        exact relinks.others block (fun linked => (growing.strings_outside block inside).2
          (nodes_subset_blocksOf linked))

/-- The fields of a new node are written, and it comes to own what else has been
made.  Every block that has been allocated since must be the node's own string then;
the node itself is the only cell that changes. -/
theorem change {extra : List Addr} (growing : Growing before memory node valuestring string [] record)
    (grows : memory.Grows after extra) (change : Record -> Record) (value name : Option Addr)
    (links : (change record).next = none ∧ (change record).prev = none ∧ (change record).child = none)
    (plain : (change record).type_.isReference = false)
    (ownsValue : (change record).valuestring = value.map (CharPointer.mk · 0))
    (ownsName : if (change record).type_.stringIsConst then name = none
      else (change record).string = name.map (CharPointer.mk · 0))
    (all : ((valuestring.toList ++ string.toList) ++ extra).Perm (value.toList ++ name.toList)) :
    Returns (after.modify (some node) change) fun final =>
      Growing before final node value name [] (change record) ∧
        ∀ block, block ≠ node -> final.cells block = after.cells block := by
  have found : after.cells node = some (.node record) := grows.found growing.held.cell
  have cells := store_cells found (some (.node (change record)))
  have blocks : ((Layout.mk node valuestring string []).blocks ++ extra).Perm
      (Layout.mk node value name []).blocks := by
    rw [Layout.blocks, Layout.blocks, blocksOf, List.append_nil, List.append_nil, List.cons_append]
    exact all.cons node
  have grown := (growing.grows.trans grows).perm blocks
  have final := grown.store List.mem_cons_self found (change record)
  rw [modify_eq found]
  apply Returns.ok
  refine ⟨⟨⟨final, ?_, trivial, trivial⟩, links.1, links.2.1, links.2.2, trivial⟩, ?_⟩
  · refine ⟨?_, plain, ownsValue, ownsName, ?_⟩
    · rw [cells, Function.update_self]
    · intro block inside
      apply final.live
      rw [Layout.blocks, blocksOf, List.append_nil]
      exact List.mem_cons_of_mem _ inside
  · intro block different
    rw [cells, Function.update_of_ne different]

end Growing

end Memory

end CJson
