import CJson.Leaks

/-!
# Programs that make and delete

A program makes trees with the constructors and `cjson_duplicate`, and deletes them again, in
any order, while the allocator grants and refuses what it likes.  At every moment the live
blocks are those that were there before and those of the trees that are left, and what was there
before is as it was.
-/

namespace CJson

open Layout Memory

/-- A call of a function that returns a new tree.  Strings are pointers, which may be
NULL or lie in any live block; arrays may be NULL as well, with any count. -/
inductive Making where
  | null
  | true
  | false
  | bool (boolean : Bool)
  | number (num : Binary64)
  | array
  | object
  | string (content : Option CharPointer)
  | raw (content : Option CharPointer)
  | intArray (numbers : Option (List Int)) (count : Int)
  | doubleArray (numbers : Option (List Binary64)) (count : Int)
  | stringArray (strings : Option (List (Option CharPointer))) (count : Int)
  | duplicate (item : Pointer) (recurse : Bool)

namespace Making

/-- The tree, NULL if there is not enough memory, and the memory. -/
def run (fuel : Nat) (memory : Memory) : Making -> Except MemoryFault (Pointer × Memory)
  | .null => memory.cjsonCreateNull
  | .true => memory.cjsonCreateTrue
  | .false => memory.cjsonCreateFalse
  | .bool boolean => memory.cjsonCreateBool boolean
  | .number num => memory.cjsonCreateNumber num
  | .array => memory.cjsonCreateArray
  | .object => memory.cjsonCreateObject
  | .string content => memory.cjsonCreateString fuel content
  | .raw content => memory.cjsonCreateRaw fuel content
  | .intArray numbers count => memory.cjsonCreateIntArray fuel numbers count
  | .doubleArray numbers count => memory.cjsonCreateDoubleArray fuel numbers count
  | .stringArray strings count => memory.cjsonCreateStringArray fuel strings count
  | .duplicate item recurse => Memory.cjsonDuplicate fuel memory item recurse

/-- Each of them makes a tree in new blocks, or nothing. -/
theorem run_built (fuel : Nat) (memory : Memory) (making : Making) :
    Ensures (making.run fuel memory) memory.Built := by
  have bare : ∀ base, Bare { type_ := { base := base } } := fun base => ⟨rfl, rfl, rfl, rfl, rfl, rfl⟩
  cases making with
  | null => exact createNode_built memory (bare _)
  | true => exact createNode_built memory (bare _)
  | false => exact createNode_built memory (bare _)
  | bool boolean => exact createNode_built memory (bare _)
  | number num => exact createNumber_built memory num
  | array => exact createNode_built memory (bare _)
  | object => exact createNode_built memory (bare _)
  | string content => exact createText_built memory fuel _ content
  | raw content => exact createText_built memory fuel _ content
  | intArray numbers count =>
      exact createNumberArray_built (fun _ _ => createNumber_built _ _) memory fuel numbers count
  | doubleArray numbers count =>
      exact createNumberArray_built (fun _ _ => createNumber_built _ _) memory fuel numbers count
  | stringArray strings count =>
      exact createNumberArray_built (fun _ _ => createText_built _ fuel _ _) memory fuel strings count
  | duplicate item recurse => exact (duplicate_ensures fuel).1 memory item 0 recurse

end Making

/-- A call of such a program.  Trees are named by their place among those that it has,
as a program has them in variables. -/
inductive WorkshopCall where
  | make (making : Making)
  /-- `cjson_delete` of one of the trees, or of NULL if there is none of that number. -/
  | delete (position : Nat)

/-- The memory, and the trees that the program has.  Each tree is there until the
program deletes it. -/
structure Workshop where
  memory : Memory
  trees : List Addr

namespace Workshop

/-- One call.  A tree that has been made is kept with the others; a deletion of a
position that holds no tree is one of NULL. -/
def step (fuel : Nat) (workshop : Workshop) : WorkshopCall -> Except MemoryFault Workshop
  | .make making => do
      let (tree, memory) ← making.run fuel workshop.memory
      .ok ⟨memory, workshop.trees ++ tree.toList⟩
  | .delete position => do
      let memory ← workshop.memory.cjsonDelete fuel workshop.trees[position]?
      .ok ⟨memory, workshop.trees.eraseIdx position⟩

/-- Calls one after the other. -/
def run (fuel : Nat) : List WorkshopCall -> Workshop -> Except MemoryFault Workshop
  | [], workshop => .ok workshop
  | call :: calls, workshop => do
      let workshop ← step fuel workshop call
      run fuel calls workshop

/-- The memory has grown by the blocks of the trees, and each tree lies in blocks of
its own, well linked.  Nothing else has been allocated and nothing of it is gone: this
is the invariant that makes the balance come out even when the last tree is deleted. -/
structure Accounts (start : Memory) (workshop : Workshop) (layouts : List Layout) : Prop where
  trees : layouts.map Layout.node = workshop.trees
  grows : start.Grows workshop.memory (blocksOf layouts)
  each : ∀ layout ∈ layouts, layout.Holds workshop.memory ∧ layout.Linked workshop.memory ∧
    workshop.memory.links.next layout.node = none

variable {start : Memory} {workshop after : Workshop} {layouts : List Layout}

/-- A tree is as it was if its blocks are. -/
theorem each_congr {memory later : Memory} {layout : Layout}
    (stands : layout.Holds memory ∧ layout.Linked memory ∧ memory.links.next layout.node = none)
    (same : ∀ block ∈ layout.blocks, later.cells block = memory.cells block) :
    layout.Holds later ∧ layout.Linked later ∧ later.links.next layout.node = none := by
  refine ⟨stands.1.congr same, stands.2.1.congr fun block inside => same block ?_, ?_⟩
  · rw [blocks_eq]
    exact List.mem_cons_of_mem _ inside
  · rw [(links_congr (same _ layout.node_mem_blocks)).1]
    exact stands.2.2

/-- Some of the new blocks have been released. -/
theorem grows_freed {memory middle later : Memory} {gone rest : List Addr}
    (grows : memory.Grows middle (gone ++ rest)) (freed : middle.Freed later gone) : memory.Grows later rest := by
  have apart := List.nodup_append.mp grows.distinct
  have outside : ∀ block ∈ rest, block ∉ gone := fun block inside again => apart.2.2 block again block inside rfl
  constructor
  · rw [freed.unused]
    exact grows.unused
  · rw [freed.hooks]
    exact grows.succeeds
  · exact fun block inside => grows.fresh block (List.mem_append_right _ inside)
  · intro block inside
    rw [freed.kept (outside block inside)]
    exact grows.live block (List.mem_append_right _ inside)
  · exact apart.2.1
  · intro block notRest
    by_cases inGone : block ∈ gone
    · rw [freed.cells, if_pos inGone, memory.fresh block (grows.fresh block (List.mem_append_left _ inGone))]
    · rw [freed.kept inGone]
      exact grows.cells block fun inside => (List.mem_append.mp inside).elim inGone notRest

theorem make_accounts (accounts : Accounts start workshop layouts) (fuel : Nat) (making : Making) :
    Ensures (workshop.step fuel (.make making)) fun after => ∃ layouts, Accounts start after layouts := by
  apply (making.run_built fuel workshop.memory).bind
  rintro ⟨tree, memory⟩ built
  cases tree with
  | none =>
      refine Ensures.ok ⟨layouts, ?_, ?_, ?_⟩
      · rw [Option.toList_none, List.append_nil]
        exact accounts.trees
      · have grows := accounts.grows.trans built
        rwa [List.append_nil] at grows
      · exact fun layout member => each_congr (accounts.each layout member) fun block _ =>
          built.cells block List.not_mem_nil
  | some tree =>
      rcases built with ⟨layout, rfl, made⟩
      refine Ensures.ok ⟨layouts ++ [layout], ?_, ?_, ?_⟩
      · rw [List.map_append, List.map_singleton, accounts.trees, Option.toList_some]
      · rw [blocksOf_append, blocksOf, blocksOf, List.append_nil]
        exact accounts.grows.trans made.grows
      · intro other member
        rcases List.mem_append.mp member with old | new
        · refine each_congr (accounts.each other old) fun block inside => made.grows.cells block ?_
          exact made.grows.outside (accounts.grows.live block (mem_blocksOf.mpr ⟨other, old, inside⟩))
        · rw [List.mem_singleton.mp new]
          exact ⟨made.holds, made.linked, made.next⟩

theorem blocksOf_perm {layouts others : List Layout} (same : layouts.Perm others) :
    (blocksOf layouts).Perm (blocksOf others) := by
  have flat : ∀ layouts, blocksOf layouts = layouts.flatMap Layout.blocks := by
    intro layouts
    induction layouts with
    | nil => rfl
    | cons layout rest ih => rw [blocksOf, ih, List.flatMap_cons]
  rw [flat, flat]
  exact same.flatMap_right Layout.blocks

/-- A deletion ends, and takes the blocks of its tree with it. -/
theorem delete_accounts (accounts : Accounts start workshop layouts) (position : Nat) (safe : Prop) :
    Completes safe (fun fuel => workshop.step fuel (.delete position)) fun after =>
      ∃ layouts, Accounts start after layouts := by
  have split : ((layouts[position]?).toList ++ layouts.eraseIdx position).Perm layouts := by
    cases there : layouts[position]? with
    | none =>
        rw [Option.toList_none, List.nil_append, List.eraseIdx_of_length_le (List.getElem?_eq_none_iff.mp there)]
    | some layout =>
        rcases List.getElem?_eq_some_iff.mp there with ⟨bound, rfl⟩
        exact List.getElem_cons_eraseIdx_perm bound
  have grows : start.Grows workshop.memory
      (blocksOf (layouts[position]?).toList ++ blocksOf (layouts.eraseIdx position)) := by
    rw [← blocksOf_append]
    exact accounts.grows.perm (blocksOf_perm split).symm
  have each : ∀ layout ∈ (layouts[position]?).toList ++ layouts.eraseIdx position, layout.Holds workshop.memory ∧
      layout.Linked workshop.memory ∧ workshop.memory.links.next layout.node = none :=
    fun layout member => accounts.each layout (split.mem_iff.mp member)
  have head : ((layouts[position]?).toList.map Layout.node).head? = workshop.trees[position]? := by
    rw [← accounts.trees, List.getElem?_map]
    cases layouts[position]? <;> rfl
  have chain : workshop.memory.links.Chain ((layouts[position]?).toList.map Layout.node) none := by
    cases there : layouts[position]? with
    | none => trivial
    | some layout => exact ⟨rfl, (each layout (by simp [there])).2.2, trivial⟩
  have deletes := @cjsonDelete_completes _ _ chain
    (allHold_iff.mpr fun layout member => (each layout (List.mem_append_left _ member)).1)
    (List.nodup_append.mp grows.distinct).1 safe
  rw [head] at deletes
  apply deletes.bind
  intro memory freed
  refine Completes.ok ⟨layouts.eraseIdx position, ?_, grows_freed grows freed, ?_⟩
  · rw [← List.eraseIdx_map, accounts.trees]
  · intro layout member
    refine each_congr (each layout (List.mem_append_right _ member)) fun block inside => freed.kept ?_
    intro again
    exact (List.nodup_append.mp grows.distinct).2.2 block again block
      (mem_blocksOf.mpr ⟨layout, member, inside⟩) rfl

/-- Over a whole run the trees account for every new block. -/
theorem run_accounts (accounts : Accounts start workshop layouts) (fuel : Nat) (calls : List WorkshopCall) :
    Ensures (run fuel calls workshop) fun after => ∃ layouts, Accounts start after layouts := by
  induction calls generalizing workshop layouts with
  | nil => exact Ensures.ok ⟨layouts, accounts⟩
  | cons call calls ih =>
      have stepped : Ensures (workshop.step fuel call) fun after => ∃ layouts, Accounts start after layouts := by
        cases call with
        | make making => exact make_accounts accounts fuel making
        | delete position => exact (delete_accounts accounts position True).ensures fuel
      exact stepped.bind fun _ ⟨_, kept⟩ => ih kept

/-- Whatever has been made and deleted, and whatever the allocator has refused: each tree that is
left lies well linked in blocks of its own, all other memory is as it was in the beginning, any
of the trees can be deleted, and once there is no tree left the memory holds what it held. -/
theorem run_returns_memory (start : Memory) (fuel : Nat) (calls : List WorkshopCall) (after : Workshop)
    (ran : run fuel calls ⟨start, []⟩ = .ok after) :
    ∃ layouts, Accounts start after layouts ∧
      (∀ position, Settles (fun fuel => after.step fuel (.delete position)) fun last =>
        ∃ layouts, Accounts start last layouts) ∧
      (after.trees = [] -> after.memory.cells = start.cells) := by
  have nothing : Accounts start ⟨start, []⟩ [] := ⟨rfl, Grows.refl start, List.forall_mem_nil _⟩
  rcases (run_accounts nothing fuel calls).elim ran with ⟨layouts, accounts⟩
  refine ⟨layouts, accounts, fun position => (delete_accounts accounts position True).settles trivial, ?_⟩
  intro empty
  have none : layouts = [] := List.map_eq_nil_iff.mp (accounts.trees.trans empty)
  rw [none] at accounts
  exact accounts.grows.cells_eq

/-- There is memory for one node: the first tree is made, the second one is not, and the first
one is deleted. -/
theorem run_returns_memory_shelf : ∃ after,
    run 3 [.make .null, .make .true, .delete 0] ⟨Construction.shelf, []⟩ = .ok after ∧
      ∃ layouts, Accounts Construction.shelf after layouts ∧
        (∀ position, Settles (fun fuel => after.step fuel (.delete position)) fun last =>
          ∃ layouts, Accounts Construction.shelf last layouts) ∧
        (after.trees = [] -> after.memory.cells = Construction.shelf.cells) := by
  have ran : ∃ after, run 3 [.make .null, .make .true, .delete 0] ⟨Construction.shelf, []⟩ = .ok after := ⟨_, rfl⟩
  rcases ran with ⟨after, ran⟩
  exact ⟨after, ran, run_returns_memory Construction.shelf 3 _ after ran⟩

end Workshop
end CJson
