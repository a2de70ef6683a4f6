import CJson.Memory

/-!
# Trees and their blocks

A tree that a function has made lies in blocks of its own: one for each node, and
one for each string that is not shared.  A layout names them.  Deleting a tree
releases the blocks of its layout, each once, and nothing else; so whoever builds
a tree and gives up leaves the memory as it was.
-/

namespace CJson

/-- The blocks of a tree: of a node, of its strings as far as they are its own, and
of its children. -/
inductive Layout where
  | mk (node : Addr) (valuestring string : Option Addr) (children : List Layout)

namespace Layout

def node : Layout -> Addr
  | mk node _ _ _ => node

/-- Induction over a layout and over lists of layouts. -/
theorem induction {one : Layout -> Prop} {many : List Layout -> Prop}
    (mk : ∀ node valuestring string children, many children -> one (mk node valuestring string children))
    (nil : many []) (cons : ∀ layout rest, one layout -> many rest -> many (layout :: rest)) :
    (∀ layout, one layout) ∧ ∀ layouts, many layouts :=
  ⟨fun layout => @Layout.rec one many mk nil cons layout,
    fun layouts => @Layout.rec_1 one many mk nil cons layouts⟩

mutual

def blocks : Layout -> List Addr
  | mk node valuestring string children =>
      node :: (valuestring.toList ++ (string.toList ++ blocksOf children))

def blocksOf : List Layout -> List Addr
  | [] => []
  | layout :: rest => layout.blocks ++ blocksOf rest

end

mutual

/-- The number of nodes. -/
def weight : Layout -> Nat
  | mk _ _ _ children => weightOf children + 1

def weightOf : List Layout -> Nat
  | [] => 0
  | layout :: rest => layout.weight + weightOf rest

end

theorem node_mem_blocks (layout : Layout) : layout.node ∈ layout.blocks := by
  cases layout with
  | mk node valuestring string children =>
      rw [blocks]
      exact List.mem_cons_self

theorem blocksOf_append (first second : List Layout) :
    blocksOf (first ++ second) = blocksOf first ++ blocksOf second := by
  induction first with
  | nil => rfl
  | cons layout first hypothesis => rw [List.cons_append, blocksOf, blocksOf, hypothesis, List.append_assoc]

theorem mem_blocksOf {layouts : List Layout} {block : Addr} :
    block ∈ blocksOf layouts ↔ ∃ layout ∈ layouts, block ∈ layout.blocks := by
  induction layouts with
  | nil => simp [blocksOf]
  | cons layout layouts hypothesis => simp [blocksOf, hypothesis]

theorem mem_blocks_of_children {node block : Addr} {valuestring string : Option Addr} {children : List Layout}
    (inside : block ∈ blocksOf children) : block ∈ (mk node valuestring string children).blocks := by
  rw [blocks]
  exact List.mem_cons_of_mem _ (List.mem_append_right _ (List.mem_append_right _ inside))

theorem mem_blocks_of_strings {node block : Addr} {valuestring string : Option Addr} {children : List Layout}
    (inside : block ∈ valuestring.toList ++ string.toList) :
    block ∈ (mk node valuestring string children).blocks := by
  rw [blocks, ← List.append_assoc]
  exact List.mem_cons_of_mem _ (List.mem_append_left _ inside)

theorem nodes_subset_blocksOf {layouts : List Layout} {block : Addr} (inside : block ∈ layouts.map node) :
    block ∈ blocksOf layouts := by
  rcases List.mem_map.mp inside with ⟨layout, member, rfl⟩
  exact mem_blocksOf.mpr ⟨layout, member, layout.node_mem_blocks⟩

/-- No two trees share a node. -/
theorem nodup_nodes {layouts : List Layout} (distinct : (blocksOf layouts).Nodup) :
    (layouts.map node).Nodup := by
  induction layouts with
  | nil => exact List.nodup_nil
  | cons layout layouts hypothesis =>
      rcases List.nodup_append.mp distinct with ⟨_, rest, apart⟩
      refine List.nodup_cons.mpr ⟨?_, hypothesis rest⟩
      intro again
      exact apart _ layout.node_mem_blocks _ (nodes_subset_blocksOf again) rfl

end Layout

open Layout

namespace Memory

/-- The record of a node that owns these strings.  A constant name is not owned, and
not among the blocks; a node that is held is no reference, so that everything that
hangs on it goes with it. -/
structure Held (memory : Memory) (node : Addr) (valuestring string : Option Addr) (record : Record) : Prop where
  cell : memory.cells node = some (.node record)
  plain : record.type_.isReference = false
  value : record.valuestring = valuestring.map (CharPointer.mk · 0)
  name : if record.type_.stringIsConst then string = none else record.string = string.map (CharPointer.mk · 0)
  live : ∀ block ∈ valuestring.toList ++ string.toList, (memory.cells block).isSome = true

theorem Held.congr {memory after : Memory} {node : Addr} {valuestring string : Option Addr} {record other : Record}
    (held : memory.Held node valuestring string record)
    (cell : after.cells node = some (.node other)) (type : other.type_ = record.type_)
    (value : other.valuestring = record.valuestring) (name : other.string = record.string)
    (same : ∀ block ∈ valuestring.toList ++ string.toList, after.cells block = memory.cells block) :
    after.Held node valuestring string other where
  cell := cell
  plain := by
    rw [type]
    exact held.plain
  value := value.trans held.value
  name := by
    rw [type, name]
    exact held.name
  live := by
    intro block inside
    rw [same block inside]
    exact held.live block inside

end Memory

mutual

/-- The tree is in memory, in these blocks.  Children are found along `child` and
`next` alone, as `cjson_delete` finds them; what `prev` holds is not said. -/
def Layout.Holds (memory : Memory) : Layout -> Prop
  | mk node valuestring string children =>
      (∃ record, memory.Held node valuestring string record ∧ record.child = (children.map Layout.node).head?) ∧
        memory.links.Chain (children.map Layout.node) none ∧ Layout.AllHold memory children

def Layout.AllHold (memory : Memory) : List Layout -> Prop
  | [] => True
  | layout :: rest => layout.Holds memory ∧ Layout.AllHold memory rest

end

namespace Layout

theorem allHold_iff {memory : Memory} {layouts : List Layout} :
    AllHold memory layouts ↔ ∀ layout ∈ layouts, layout.Holds memory := by
  induction layouts with
  | nil => exact iff_of_true trivial (fun layout inside => absurd inside List.not_mem_nil)
  | cons layout layouts hypothesis => rw [AllHold, hypothesis, List.forall_mem_cons]

/-- A chain of trees depends on their blocks only. -/
theorem chain_congr {memory after : Memory} {layouts : List Layout}
    (chain : memory.links.Chain (layouts.map node) none)
    (same : ∀ block ∈ blocksOf layouts, after.cells block = memory.cells block) :
    after.links.Chain (layouts.map node) none :=
  chain.congr (fun block inside => Memory.links_congr (same block (nodes_subset_blocksOf inside)))

/-- A tree is where it is as long as its blocks keep what they hold, whatever happens
to the other ones. -/
theorem holds_congr_all {memory after : Memory} :
    (∀ layout : Layout, layout.Holds memory -> (∀ block ∈ layout.blocks, after.cells block = memory.cells block) ->
      layout.Holds after) ∧
    ∀ layouts, AllHold memory layouts ->
      (∀ block ∈ blocksOf layouts, after.cells block = memory.cells block) -> AllHold after layouts := by
  apply Layout.induction
  · rintro node valuestring string children below ⟨⟨record, held, head⟩, chain, holds⟩ same
    have children : ∀ block ∈ blocksOf children, after.cells block = memory.cells block := by
      intro block inside
      exact same block (mem_blocks_of_children inside)
    refine ⟨⟨record, ?_, head⟩, chain_congr chain children, below holds children⟩
    apply held.congr ((same node (node_mem_blocks _)).trans held.cell) rfl rfl rfl
    intro block inside
    exact same block (mem_blocks_of_strings inside)
  · intro _ _
    trivial
  · rintro layout rest one many ⟨first, others⟩ same
    constructor
    · exact one first (fun block inside => same block (List.mem_append_left _ inside))
    · exact many others (fun block inside => same block (List.mem_append_right _ inside))

theorem Holds.congr {memory after : Memory} {layout : Layout} (holds : layout.Holds memory)
    (same : ∀ block ∈ layout.blocks, after.cells block = memory.cells block) : layout.Holds after :=
  holds_congr_all.1 layout holds same

theorem AllHold.congr {memory after : Memory} {layouts : List Layout} (holds : AllHold memory layouts)
    (same : ∀ block ∈ blocksOf layouts, after.cells block = memory.cells block) : AllHold after layouts :=
  holds_congr_all.2 layouts holds same

end Layout

/-! ## Deleting -/

namespace Memory

/-- These blocks have been released, and nothing else has happened.  No other block
has changed, and nothing has been asked of the hooks. -/
structure Freed (memory after : Memory) (gone : List Addr) : Prop where
  unused : after.unused = memory.unused
  hooks : after.hooks = memory.hooks
  cells : ∀ block, after.cells block = if block ∈ gone then none else memory.cells block

theorem Freed.refl (memory : Memory) : memory.Freed memory [] :=
  ⟨rfl, rfl, fun _ => (if_neg List.not_mem_nil).symm⟩

theorem Freed.kept {memory after : Memory} {gone : List Addr} (freed : memory.Freed after gone) {block : Addr}
    (outside : block ∉ gone) : after.cells block = memory.cells block := by
  rw [freed.cells, if_neg outside]

theorem Freed.trans {memory middle after : Memory} {first second : List Addr} (freed : memory.Freed middle first)
    (more : middle.Freed after second) : memory.Freed after (first ++ second) where
  unused := more.unused.trans freed.unused
  hooks := more.hooks.trans freed.hooks
  cells := by
    intro block
    rw [more.cells, freed.cells]
    by_cases inFirst : block ∈ first
    · rw [if_pos inFirst, ite_self, if_pos (List.mem_append_left _ inFirst)]
    · rw [if_neg inFirst]
      by_cases inSecond : block ∈ second
      · rw [if_pos inSecond, if_pos (List.mem_append_right _ inSecond)]
      · rw [if_neg inSecond, if_neg (by simp [inFirst, inSecond])]

theorem Freed.perm {memory after : Memory} {gone other : List Addr} (freed : memory.Freed after gone)
    (same : gone.Perm other) : memory.Freed after other where
  unused := freed.unused
  hooks := freed.hooks
  cells block := by simp only [freed.cells, same.mem_iff]

theorem release_freed {memory : Memory} {block : Addr} (live : (memory.cells block).isSome = true) :
    Returns (memory.release block) fun after => memory.Freed after [block] := by
  rcases Option.isSome_iff_exists.mp live with ⟨cell, found⟩
  refine ⟨_, if_pos live, rfl, rfl, ?_⟩
  intro other
  rw [store_cells found]
  by_cases same : other = block
  · rw [same, Function.update_self, if_pos List.mem_cons_self]
  · rw [Function.update_of_ne same, if_neg (by simpa using same)]

/-- The strings of a node have been released; its record may have changed.  The source
sets the pointers to NULL after it has released them, and the node itself is still
there. -/
structure Cleared (memory after : Memory) (node : Addr) (gone : List Addr) (record : Record) : Prop where
  unused : after.unused = memory.unused
  hooks : after.hooks = memory.hooks
  cell : after.cells node = some (.node record)
  cells : ∀ block, block ≠ node -> after.cells block = if block ∈ gone then none else memory.cells block

/-- A string field is cleared, if the node owns it.  Otherwise nothing happens, and
the record is what it was; in both cases the blocks that are gone are exactly those of
the field. -/
theorem clear_string {memory : Memory} {node : Addr} {record : Record} {owned : Bool} {pointer : Option CharPointer}
    {change : Record -> Record} (block : Option Addr) (cell : memory.cells node = some (.node record))
    (owns : if owned then pointer = block.map (CharPointer.mk · 0) else block = none)
    (live : ∀ other ∈ block.toList, (memory.cells other).isSome = true ∧ other ≠ node) :
    Returns (if owned && pointer.isSome then do
        let memory ← memory.dealloc pointer
        memory.modify (some node) change
      else .ok memory) fun after =>
        ∃ final, (final = record ∨ final = change record) ∧ memory.Cleared after node block.toList final := by
  cases block with
  | none =>
      have nothing : (owned && pointer.isSome) = false := by
        cases owned with
        | false => rfl
        | true =>
            rw [if_pos rfl] at owns
            rw [owns]
            rfl
      rw [nothing]
      refine Returns.ok ⟨record, Or.inl rfl, rfl, rfl, cell, ?_⟩
      intro other _
      exact (if_neg List.not_mem_nil).symm
  | some text =>
      cases owned with
      | false =>
          rw [if_neg (by decide)] at owns
          cases owns
      | true =>
          rw [if_pos rfl] at owns
          rcases live text List.mem_cons_self with ⟨textLive, different⟩
          rw [owns]
          show Returns (memory.release text >>= fun memory => memory.modify (some node) change) _
          apply (release_freed textLive).bind
          intro after _ freed
          have still : after.cells node = some (.node record) := by
            rw [freed.kept (by simpa using different.symm)]
            exact cell
          have cells := store_cells still (some (.node (change record)))
          rw [modify_eq still]
          refine Returns.ok ⟨change record, Or.inr rfl, freed.unused, freed.hooks, ?_, ?_⟩
          · rw [cells, Function.update_self]
          · intro other apart
            rw [cells, Function.update_of_ne apart, freed.cells]
            rfl

/-- The strings of a node that owns them, and then the node itself, are released.
What follows in `cjson_delete` may rely on exactly these blocks being gone. -/
theorem Held.release_yields {memory : Memory} {node : Addr} {valuestring string : Option Addr} {record : Record}
    (held : memory.Held node valuestring string record)
    (distinct : (node :: (valuestring.toList ++ string.toList)).Nodup) {next : Memory -> Except MemoryFault Memory}
    {post : Memory -> Prop} {stops : MemoryFault -> Prop}
    (rest : ∀ without, memory.Freed without (node :: (valuestring.toList ++ string.toList)) ->
      Yields (next without) post stops) :
    Yields (do
      let record ← memory.read (some node)
      let memory ← (if !record.type_.isReference && record.valuestring.isSome then do
          let memory ← memory.dealloc record.valuestring
          memory.modify (some node) (fun record => { record with valuestring := none })
        else .ok memory)
      let record ← memory.read (some node)
      let memory ← (if !record.type_.stringIsConst && record.string.isSome then do
          let memory ← memory.dealloc record.string
          memory.modify (some node) (fun record => { record with string := none })
        else .ok memory)
      let memory ← memory.release node
      next memory) post stops := by
  rcases List.nodup_cons.mp distinct with ⟨nodeOut, distinct⟩
  rcases List.nodup_append.mp distinct with ⟨_, _, apart⟩
  have strings : ∀ other ∈ valuestring.toList ++ string.toList,
      (memory.cells other).isSome = true ∧ other ≠ node := by
    intro other inside
    refine ⟨held.live other inside, ?_⟩
    rintro rfl
    exact nodeOut inside
  rw [read_eq held.cell, Except.ok_bind]
  apply Yields.bind_returns (clear_string valuestring held.cell (by rw [held.plain]; exact held.value)
    (fun other inside => strings other (List.mem_append_left _ inside)))
  rintro middle ⟨second, kept, cleared⟩
  have type : second.type_ = record.type_ := by
    rcases kept with rfl | rfl <;> rfl
  have name : second.string = record.string := by
    rcases kept with rfl | rfl <;> rfl
  rw [read_eq cleared.cell, Except.ok_bind]
  apply Yields.bind_returns (clear_string string cleared.cell ?owns ?live)
  case owns =>
    rw [type, name]
    have owned := held.name
    cases const : record.type_.stringIsConst with
    | false => simpa [const] using owned
    | true => simpa [const] using owned
  case live =>
    intro other inside
    rcases strings other (List.mem_append_right _ inside) with ⟨live, different⟩
    rw [cleared.cells other different, if_neg (fun inValue => apart other inValue other inside rfl)]
    exact ⟨live, different⟩
  rintro upper ⟨third, _, clearedName⟩
  have nodeLive : (upper.cells node).isSome = true := by
    rw [clearedName.cell]
    rfl
  apply Yields.bind_returns (release_freed nodeLive)
  intro without released
  apply rest without
  refine ⟨?_, ?_, ?_⟩
  · rw [released.unused, clearedName.unused, cleared.unused]
  · rw [released.hooks, clearedName.hooks, cleared.hooks]
  intro other
  by_cases same : other = node
  · rw [same, released.cells, if_pos List.mem_cons_self, if_pos List.mem_cons_self]
  · rw [released.kept (by simpa using same), clearedName.cells other same, cleared.cells other same]
    simp only [List.mem_cons, List.mem_append, same, false_or]
    by_cases inValue : other ∈ valuestring.toList <;> by_cases inString : other ∈ string.toList <;>
      simp [inValue, inString]

/-- `cjson_delete` releases the blocks of the trees, and does so as soon as the
budget covers their nodes. -/
theorem cjsonDelete_yields (fuel : Nat) :
    ∀ {memory : Memory} {layouts : List Layout}, memory.links.Chain (layouts.map Layout.node) none ->
      AllHold memory layouts -> (blocksOf layouts).Nodup ->
        Yields (cjsonDelete fuel memory (layouts.map Layout.node).head?)
          (fun after => memory.Freed after (blocksOf layouts)) (fun _ => fuel ≤ weightOf layouts) := by
  induction fuel with
  | zero =>
      intro memory layouts _ _ _
      exact Nat.zero_le _
  | succ fuel hypothesis =>
      intro memory layouts chain holds distinct
      rcases layouts with _ | ⟨⟨node, valuestring, string, children⟩, rest⟩
      · exact Freed.refl memory
      rcases holds with ⟨⟨⟨record, held, head⟩, below, childrenHold⟩, restHold⟩
      have next : record.next = (rest.map Layout.node).head? := by
        rw [← links_next held.cell]
        exact chain.next_first
      have spent : ∀ {budget : Nat}, budget + 1 ≤ weightOf (Layout.mk node valuestring string children :: rest) ↔
          budget ≤ weightOf children + weightOf rest := by
        intro budget
        rw [weightOf, Layout.weight]
        omega
      -- the blocks of the node, those below it and those of its siblings are apart
      have order : blocksOf (Layout.mk node valuestring string children :: rest) =
          ((node :: (valuestring.toList ++ string.toList)) ++ blocksOf children) ++ blocksOf rest := by
        simp only [blocksOf, blocks, List.cons_append, List.append_assoc]
      rw [order] at distinct ⊢
      rcases List.nodup_append.mp distinct with ⟨tree, restDistinct, restApart⟩
      rcases List.nodup_append.mp tree with ⟨own, childrenDistinct, ownApart⟩
      have descends : Yields (if !record.type_.isReference && record.child.isSome then
            cjsonDelete fuel memory record.child
          else .ok memory)
          (fun after => memory.Freed after (blocksOf children)) (fun _ => fuel ≤ weightOf children) := by
        rw [held.plain, head]
        cases children with
        | nil => exact Freed.refl memory
        | cons child children => exact hypothesis below childrenHold childrenDistinct
      show Yields (cjsonDelete (fuel + 1) memory (some node)) _ _
      unfold cjsonDelete
      dsimp only
      rw [read_eq held.cell, Except.ok_bind]
      apply descends.bind
      · intro _ short
        exact spent.mpr (le_trans short (Nat.le_add_right _ _))
      intro lower freed
      have kept : ∀ block ∈ node :: (valuestring.toList ++ string.toList), lower.cells block = memory.cells block :=
        fun block inside => freed.kept fun below => ownApart block inside block below rfl
      have lowerHeld : lower.Held node valuestring string record :=
        held.congr ((kept node List.mem_cons_self).trans held.cell) rfl rfl rfl
          (fun block inside => kept block (List.mem_cons_of_mem _ inside))
      apply lowerHeld.release_yields own
      intro without released
      have gone : memory.Freed without ((node :: (valuestring.toList ++ string.toList)) ++ blocksOf children) :=
        (freed.trans released).perm List.perm_append_comm
      have others : ∀ block ∈ blocksOf rest, without.cells block = memory.cells block :=
        fun block inside => gone.kept fun again => restApart block again block inside rfl
      rw [next]
      apply (hypothesis (chain_congr chain.tail others) (restHold.congr others) restDistinct).mono
      · intro after more
        exact gone.trans more
      · intro _ short
        exact spent.mpr (le_trans short (Nat.le_add_left _ _))

/-- Releasing blocks is a function of the memory. -/
theorem Freed.unique {memory after other : Memory} {gone : List Addr} (freed : memory.Freed after gone)
    (also : memory.Freed other gone) : after = other := by
  rcases after with ⟨cells, unused, hooks, fresh⟩
  rcases other with ⟨otherCells, otherUnused, otherHooks, otherFresh⟩
  obtain rfl : unused = otherUnused := freed.unused.trans also.unused.symm
  obtain rfl : hooks = otherHooks := freed.hooks.trans also.hooks.symm
  obtain rfl : cells = otherCells := funext (fun block => (freed.cells block).trans (also.cells block).symm)
  rfl

theorem cjsonDelete_completes {memory : Memory} {layouts : List Layout}
    (chain : memory.links.Chain (layouts.map Layout.node) none) (holds : AllHold memory layouts)
    (distinct : (blocksOf layouts).Nodup) {safe : Prop} :
    Completes safe (fun fuel => memory.cjsonDelete fuel (layouts.map Layout.node).head?)
      (fun after => memory.Freed after (blocksOf layouts)) := by
  have yields : ∀ fuel, Yields (memory.cjsonDelete fuel (layouts.map Layout.node).head?)
      (fun after => memory.Freed after (blocksOf layouts)) (fun _ => fuel ≤ weightOf layouts) :=
    fun fuel => cjsonDelete_yields fuel chain holds distinct
  refine ⟨fun fuel => (yields fuel).mono (fun _ freed => freed) (fun _ _ => trivial), ?_⟩
  intro _
  have enough : ∀ fuel, weightOf layouts + 1 ≤ fuel ->
      Returns (memory.cjsonDelete fuel (layouts.map Layout.node).head?)
      (fun after => memory.Freed after (blocksOf layouts)) :=
    fun fuel large => (yields fuel).returns (fun _ short => absurd large (Nat.not_le.mpr (Nat.lt_succ_of_le short)))
  rcases enough _ (Nat.le_refl _) with ⟨after, _, freed⟩
  refine ⟨weightOf layouts + 1, after, ?_, freed⟩
  intro fuel large
  rcases enough fuel large with ⟨other, ends, also⟩
  exact ends.trans (congrArg Except.ok (also.unique freed))

end Memory

end CJson
