import CJson.Confinement

/-!
# Patching a node that has siblings

The document that is patched may be a member of a container.  Patches below it stay
in its own tree, so the list it is in does not notice them.  A patch with an empty
path writes over the whole node, the links to its siblings and its name included.
-/

namespace CJson
namespace Heap

open CString

variable {region : Set Addr} {root : Addr} {base heap after : Heap} {caseSensitive : Bool} {fuel : Nat}
  {object patch patches value : Pointer}

/-- A patch that writes over the node it is applied to: its path is empty, and it is a
removal, or it adds or replaces with a value that can be copied.  A patch that fails
before that, as one without a value does, overwrites nothing. -/
def Overwrites (fuel : Nat) (heap : Heap) (patch : Pointer) (caseSensitive : Bool) : Prop :=
  ∃ path fields pointer operation, heap.getObjectItem fuel patch (some pathName) caseSensitive = .ok path ∧
    heap.hasBase path .string = .ok true ∧
    heap.decodePatchOperation fuel patch caseSensitive = .ok operation ∧
    heap.fields path = .ok fields ∧ fields.valuestring = some pointer ∧ first pointer = 0 ∧
    (operation = .remove ∨ (operation = .add ∨ operation = .replace) ∧
      ∃ value copy after, heap.getObjectItem fuel patch (some valueName) caseSensitive = .ok value ∧
        heap.cjsonDuplicate fuel value true = .ok (some copy, after))

/-! ## A patch that does not overwrite -/

theorem overwriteRoot_confined (confined : Confined region root base heap) {operation : PatchOperation}
    (notRemove : operation ≠ .remove)
    (noCopy : ∀ value copy after, heap.getObjectItem fuel patch (some valueName) caseSensitive = .ok value ->
      heap.cjsonDuplicate fuel value true ≠ .ok (some copy, after)) :
    Ensures (heap.overwriteRoot fuel object patch operation caseSensitive) fun result =>
      Confined region root base result.2 := by
  rw [overwriteRoot, if_neg notRemove]
  apply Ensures.follow
  intro value found
  apply Ensures.ite
  · exact fun _ => .ok confined
  intro _
  have copied := @Confined.duplicateRec _ _ _ _ fuel value confined 0 true
  apply Ensures.follow
  rintro ⟨copy, after⟩ duplicated
  cases copy with
  | none => exact .ok (copied.elim duplicated).1
  | some copy => exact absurd duplicated (noCopy value copy after found)

theorem applyPatch_confined (confined : Confined region root base heap) (within : Into (insert root region) object)
    (patchInto : Into (insert root region) patch) (not : ¬ heap.Overwrites fuel patch caseSensitive) :
    Ensures (heap.applyPatch fuel object patch caseSensitive) fun result => Confined region root base result.2 := by
  apply Ensures.follow
  intro path found
  apply Ensures.follow
  intro isString string
  apply Ensures.ite
  · exact fun _ => .ok confined
  intro isTrue
  rw [Bool.not_eq_true', Bool.not_eq_false] at isTrue
  subst isTrue
  apply Ensures.follow
  intro operation decoded
  split
  · exact .ok confined
  · exact confined.testPatch within patchInto
  · apply Ensures.follow
    intro fields read
    split
    · exact .error
    rename_i pointer stored
    apply Ensures.ite
    · rintro ⟨empty, notMove, notCopy⟩
      have noCopy : operation = .add ∨ operation = .replace -> ∀ value copy after,
          heap.getObjectItem fuel patch (some valueName) caseSensitive = .ok value ->
            heap.cjsonDuplicate fuel value true ≠ .ok (some copy, after) := by
        intro adds value copy after given duplicated
        exact not ⟨path, fields, pointer, operation, found, string, decoded, read, stored, empty,
          Or.inr ⟨adds, value, copy, after, given, duplicated⟩⟩
      cases operation with
      | invalid => contradiction
      | test => contradiction
      | move => contradiction
      | copy => contradiction
      | remove =>
          exact absurd ⟨path, fields, pointer, .remove, found, string, decoded, read, stored, empty, Or.inl rfl⟩ not
      | add => exact overwriteRoot_confined confined (by decide) (noCopy (Or.inl rfl))
      | replace => exact overwriteRoot_confined confined (by decide) (noCopy (Or.inr rfl))
    · exact fun _ => confined.applyAtPath within pointer operation

/-! ## A patch that overwrites -/

theorem Closed.withFields (closed : Closed region root heap) (node : Addr) (fields : Fields) :
    Closed region root (heap.withFields node fields) :=
  { closed with }

theorem Closed.withHooks (closed : Closed region root heap) (hooks : Hooks) :
    Closed region root { heap with hooks := hooks } :=
  { closed with }

/-- A write to the links of the root does not concern the set, since what is below the
root hangs on its child. -/
theorem Closed.setLink (closed : Closed region root heap) {links : Links Addr}
    (next : ∀ node, node ≠ root -> links.next node = heap.links.next node)
    (prev : ∀ node, node ≠ root -> links.prev node = heap.links.prev node) :
    Closed region root (heap.withLinks links) := by
  have different : ∀ node ∈ region, node ≠ root := fun node inside same => closed.outside (same ▸ inside)
  refine { closed with nextInto := ?_, prevInto := ?_ }
  · intro node inside live
    rw [withLinks_links, next node (different node inside)]
    exact closed.nextInto node inside live
  · intro node inside live
    rw [withLinks_links, prev node (different node inside)]
    exact closed.prevInto node inside live

/-- The set stays closed, but the root has lost its `prev`, as an overwritten node
has. -/
structure Wiped (region : Set Addr) (root : Addr) (heap : Heap) : Prop where
  closed : Closed region root heap
  prev : heap.links.prev root = none

namespace Wiped

/-- What stays confined does not restore the `prev`. -/
theorem confined (wiped : Wiped region root base) (confined : Confined region root base heap) :
    Wiped region root heap :=
  ⟨confined.toClosed, (confined.samePrev root confined.outside).trans wiped.prev⟩

theorem setChild (wiped : Wiped region root heap) {target : Pointer} (into : Into region target) :
    Ensures (heap.setChild (some root) target) (Wiped region root) :=
  (wiped.closed.confined.setChild (into_some.mpr (Set.mem_insert _ _)) into).mono fun _ => wiped.confined

theorem release (wiped : Wiped region root heap) (node : Pointer) :
    Ensures (heap.release node) (Wiped region root) :=
  wiped.closed.confined.release.mono fun _ => wiped.confined

theorem record (wiped : Wiped region root heap) (releases : List Release) :
    Wiped region root (heap.record releases) :=
  wiped.confined (wiped.closed.confined.record releases)

theorem setFields (wiped : Wiped region root heap) (node : Pointer) (change : Fields -> Fields) :
    Ensures (heap.setFields node change) (Wiped region root) := by
  apply Ensures.step
  exact fun addr => .ok ⟨wiped.closed.withFields addr _, wiped.prev⟩

end Wiped

theorem Closed.setNext_root (closed : Closed region root heap) (target : Pointer) :
    Ensures (heap.setNext (some root) target) (Closed region root) := by
  apply access_ensures.bind
  rintro _ ⟨⟨⟩, _⟩
  exact closed.setLink (fun node different => by simp [different]) (fun _ _ => rfl)

theorem Closed.setPrev_root (closed : Closed region root heap) :
    Ensures (heap.setPrev (some root) none) (Wiped region root) := by
  apply access_ensures.bind
  rintro _ ⟨⟨⟩, _⟩
  exact ⟨closed.setLink (fun _ _ => rfl) (fun node different => by simp [different]), by simp⟩

theorem overwriteItem_wipes (confined : Confined region root base heap) {replacement : Contents}
    (childInto : Into region replacement.child) (noPrev : replacement.prev = none) :
    Ensures (heap.overwriteItem fuel (some root) replacement) (Wiped region root) := by
  rcases replacement with ⟨next, prev, newChild, fields⟩
  subst noPrev
  apply Ensures.ite
  · exact fun impossible => absurd impossible Bool.false_ne_true
  intro _
  apply Ensures.step
  intro own
  have confined := confined.record (overwrittenTexts own)
  apply (confined.child (into_some.mpr (Set.mem_insert _ _))).bind
  intro child belowInto
  refine .iteBind (fun _ => (confined.record _).cjsonDelete belowInto) (fun _ => .ok confined)
    fun heap confined => ?_
  apply (confined.setNext_root next).bind
  intro heap closed
  apply closed.setPrev_root.bind
  intro heap wiped
  apply (wiped.setChild childInto).bind
  exact fun heap wiped => wiped.setFields _ _

/-! ## The links of a copy -/

/-- A node that has just been made, with nothing after it.  Everything that is made
later on belongs to its territory. -/
def Newest (top : Addr) (heap : Heap) : Prop := Wiped {node | top < node} top heap

theorem newItem_newest (used : ∀ node, heap.allocated node = true -> node < heap.unused) {top : Addr}
    (made : heap.newItem = (some top, after)) : Newest top after := by
  rw [newItem] at made
  split at made
  · cases made
    have last : ∀ node, (heap.request nodeSize).2.allocate.allocated node = true -> node < heap.unused + 1 := by
      intro node live
      by_cases new : node = heap.unused
      · exact new ▸ Nat.lt_succ_self _
      · apply Nat.lt_succ_of_lt
        apply used node
        simpa [allocate, new, request] using live
    have nothing : ∀ node ∈ {node | heap.unused < node},
        (heap.request nodeSize).2.allocate.allocated node = true -> False :=
      fun node later live => Nat.not_lt_of_le (Nat.le_of_lt_succ (last node live)) later
    refine ⟨⟨last, fun _ later => later, fun impossible => Nat.lt_irrefl _ impossible, ?_, ?_, ?_⟩, ?_⟩
    · exact fun node inside live => (nothing node inside live).elim
    · exact fun node inside live => (nothing node inside live).elim
    · rintro node (rfl | inside) live
      · simpa [allocate, request] using into_none
      · exact (nothing node inside live).elim
    · simp [allocate, request]
  · cases made

theorem Newest.withHooks {top : Addr} (newest : Newest top heap) (hooks : Hooks) :
    Newest top { heap with hooks := hooks } :=
  ⟨newest.closed.withHooks hooks, newest.prev⟩

theorem duplicateText_newest {top : Addr} (newest : Newest top heap) (string : Option Bytes) :
    Newest top (heap.duplicateText string).2 := by
  cases string with
  | none => exact newest
  | some string => exact newest.withHooks _

theorem duplicateNode_newest (used : ∀ node, heap.allocated node = true -> node < heap.unused) {item : Pointer} :
    Ensures (heap.duplicateNode fuel item) fun result => ∀ top, result.1 = some top -> Newest top result.2 := by
  have fails : ∀ run : Except MemoryFault Heap, Ensures (do
      let heap ← run
      .ok ((none : Pointer), heap)) fun result => ∀ top, result.1 = some top -> Newest top result.2 := by
    intro run
    apply Ensures.step
    exact fun heap => .ok fun _ impossible => by cases impossible
  rw [duplicateNode]
  rcases made : heap.newItem with ⟨_ | newitem, heap⟩
  · exact .ok fun _ impossible => by cases impossible
  have newest := newItem_newest used made
  apply Ensures.step
  intro fields
  apply (newest.setFields _ _).bind
  intro heap newest
  have texts := duplicateText_newest newest fields.valuestring
  rcases copied : heap.duplicateText fields.valuestring with ⟨_ | valuestring, heap⟩ <;> rw [copied] at texts
  · exact fails _
  apply (texts.setFields _ _).bind
  intro heap newest
  have names : Newest newitem (heap.duplicateName fields).2 := by
    rw [duplicateName]
    split
    · exact newest
    · exact duplicateText_newest newest _
  rcases copied : heap.duplicateName fields with ⟨_ | string, heap⟩ <;> rw [copied] at names
  · exact fails _
  apply (names.setFields _ _).bind
  rintro heap newest
  exact .ok fun top same => Option.some.inj same ▸ newest

/-- A copy is in no list. -/
theorem cjsonDuplicate_prev (used : ∀ node, heap.allocated node = true -> node < heap.unused) :
    Ensures (heap.cjsonDuplicate fuel value true) fun result =>
      ∀ top, result.1 = some top -> result.2.links.prev top = none := by
  cases fuel with
  | zero => exact .error
  | succ fuel =>
      rw [cjsonDuplicate, duplicateRec]
      apply Ensures.ite
      · exact fun _ => .ok fun _ impossible => by cases impossible
      intro _
      apply (duplicateNode_newest used).bind
      rintro ⟨newitem, heap⟩ newest
      apply Ensures.ite
      · exact fun _ => .ok fun _ impossible => by cases impossible
      intro made
      rcases newitem with _ | top
      · exact absurd rfl made
      have newest : Newest top heap := newest top rfl
      have within : Into (insert top {node | top < node}) (some top) := into_some.mpr (Set.mem_insert _ _)
      apply Ensures.ite
      · exact fun impossible => absurd impossible Bool.false_ne_true
      intro _
      apply Ensures.step
      intro child
      have children := @Confined.duplicateChildren _ _ _ _ fuel _ child none 0
        (fun less _ item depth recurse heap confined => confined.duplicateRec depth recurse)
        newest.closed.confined within into_none
      apply children.bind
      rintro ⟨_ | last, heap⟩ done
      · exact .ok fun _ impossible => by cases impossible
      apply (done.1.closeChildren within done.2).bind
      intro heap confined
      apply Ensures.ok
      rintro _ ⟨⟩
      exact (newest.confined confined).prev

theorem readNode_ensures (confined : Confined region root base heap) {node : Addr} (inside : node ∈ region)
    (prev : heap.links.prev node = none) : Ensures (heap.readNode (some node)) fun contents =>
      contents.prev = none ∧ Into region contents.child := by
  apply Ensures.step
  intro next
  have read : Ensures (heap.prev (some node)) (· = none) := by
    apply access_ensures.bind
    rintro _ ⟨⟨⟩, _⟩
    exact prev
  apply read.bind
  intro prev noPrev
  apply (confined.child (into_some.mpr (Set.mem_insert_of_mem _ inside))).bind
  intro child childInto
  apply Ensures.step
  exact fun fields => .ok ⟨noPrev, childInto⟩

theorem overwriteRoot_wipes (confined : Confined region root base heap) {operation : PatchOperation}
    (overwrites : operation = .remove ∨ ∃ value copy after,
      heap.getObjectItem fuel patch (some valueName) caseSensitive = .ok value ∧
        heap.cjsonDuplicate fuel value true = .ok (some copy, after)) :
    Ensures (heap.overwriteRoot fuel (some root) patch operation caseSensitive) fun result =>
      Wiped region root result.2 := by
  rw [overwriteRoot]
  apply Ensures.ite
  · intro _
    apply (overwriteItem_wipes confined into_none rfl).bind
    exact fun heap wiped => .ok wiped
  intro notRemove
  rcases overwrites.resolve_left notRemove with ⟨value, copy, after, found, duplicated⟩
  rw [found, Except.ok_bind]
  apply Ensures.ite
  · intro missing
    rw [Option.isNone_iff_eq_none] at missing
    exact absurd (missing ▸ duplicated) cjsonDuplicate_none
  intro _
  rcases Ensures.elim (confined.duplicateRec 0 true) duplicated with ⟨later, inside⟩
  have prev := (cjsonDuplicate_prev confined.used).elim duplicated copy rfl
  rw [duplicated, Except.ok_bind]
  apply Ensures.ite
  · exact fun impossible => absurd impossible Bool.false_ne_true
  intro _
  apply (readNode_ensures later (inside copy rfl) prev).bind
  rintro replacement ⟨noPrev, childInto⟩
  apply (overwriteItem_wipes later childInto noPrev).bind
  intro heap wiped
  apply (wiped.release _).bind
  intro heap wiped
  apply Ensures.step
  intro fields
  apply ((wiped.record _).setFields _ _).bind
  exact fun heap wiped => .ok wiped

theorem applyPatch_wipes (confined : Confined region root base heap)
    (overwrites : heap.Overwrites fuel patch caseSensitive) :
    Ensures (heap.applyPatch fuel (some root) patch caseSensitive) fun result => Wiped region root result.2 := by
  rcases overwrites with ⟨path, fields, pointer, operation, found, string, decoded, read, stored, empty, how⟩
  rw [applyPatch, found, Except.ok_bind, string, Except.ok_bind, if_neg (by decide), decoded, Except.ok_bind]
  have special : operation ≠ .move ∧ operation ≠ .copy ∧ operation ≠ .invalid ∧ operation ≠ .test := by
    rcases how with rfl | ⟨rfl | rfl, _⟩ <;> decide
  split
  · exact absurd rfl special.2.2.1
  · exact absurd rfl special.2.2.2
  rw [read, Except.ok_bind, stored]
  dsimp only
  rw [if_pos ⟨empty, special.1, special.2.1⟩]
  exact overwriteRoot_wipes confined (how.imp_right fun adds => adds.2)

/-! ## Runs -/

/-- The patches that the loop comes to, with the memory as they find it.  After one
that fails it comes to none. -/
inductive ComesTo (object : Pointer) (caseSensitive : Bool) :
    Nat -> Heap -> Pointer -> Nat -> Heap -> Addr -> Prop
  | here {fuel : Nat} {heap : Heap} {patch : Addr} :
      ComesTo object caseSensitive fuel heap (some patch) fuel heap patch
  | later {fuel later : Nat} {heap after final : Heap} {current patch : Addr} {next : Pointer} :
      heap.applyPatch (fuel + 1) object (some current) caseSensitive = .ok (0, after) ->
      after.next (some current) = .ok next ->
      ComesTo object caseSensitive fuel after next later final patch ->
      ComesTo object caseSensitive (fuel + 1) heap (some current) later final patch

/-- No patch of the run overwrites the document.  The condition is on each patch and
the memory before it; what the patch then does is not part of it. -/
def NeverOverwrites (fuel : Nat) (heap : Heap) (object current : Pointer) (caseSensitive : Bool) : Prop :=
  ∀ later final patch, ComesTo object caseSensitive fuel heap current later final patch ->
    ¬ final.Overwrites later (some patch) caseSensitive

theorem applyPatchesLoop_confined {current : Pointer} (confined : Confined region root base heap)
    (currentInto : Into region current) (never : heap.NeverOverwrites fuel (some root) current caseSensitive) :
    Ensures (Heap.applyPatchesLoop (some root) caseSensitive fuel heap current) fun result =>
      Confined region root base result.2 := by
  induction fuel generalizing heap current with
  | zero => exact .error
  | succ fuel ih =>
      rcases current with _ | patch
      · exact .ok confined
      apply Ensures.ite
      · exact fun impossible => absurd impossible Bool.false_ne_true
      intro _
      have rootInto : Into (insert root region) (some root) := into_some.mpr (Set.mem_insert _ _)
      have patched := applyPatch_confined confined rootInto currentInto.insert (never _ _ _ .here)
      apply Ensures.follow
      rintro ⟨status, after⟩ applied
      have confined : Confined region root base after := patched.elim applied
      apply Ensures.ite
      · exact fun _ => .ok confined
      intro succeeded
      rw [not_not] at succeeded
      subst succeeded
      have nextInto := confined.next currentInto
      apply Ensures.follow
      intro next read
      apply ih confined (nextInto.elim read)
      exact fun later final patch comes => never later final patch (.later applied read comes)

/-- Once the root has lost its `prev`, no patch restores it: patches link nodes below
the root, and the root only overwrites itself. -/
theorem applyPatchesLoop_wiped {current : Pointer} (wiped : Wiped region root heap)
    (currentInto : Into region current) :
    Ensures (Heap.applyPatchesLoop (some root) caseSensitive fuel heap current) fun result =>
      Wiped region root result.2 := by
  induction fuel generalizing heap current with
  | zero => exact .error
  | succ fuel ih =>
      apply Ensures.ite
      · exact fun _ => .ok wiped
      intro _
      have rootInto : Into (insert root region) (some root) := into_some.mpr (Set.mem_insert _ _)
      have patched : Ensures (heap.applyPatch (fuel + 1) (some root) current caseSensitive) fun result =>
          Wiped region root result.2 := by
        by_cases overwrites : heap.Overwrites (fuel + 1) current caseSensitive
        · exact applyPatch_wipes wiped.closed.confined overwrites
        · exact (applyPatch_confined wiped.closed.confined rootInto currentInto.insert overwrites).mono
            fun _ => wiped.confined
      apply patched.bind
      rintro ⟨status, heap⟩ wiped
      apply Ensures.ite
      · exact fun _ => .ok wiped
      intro _
      apply (wiped.closed.confined.next currentInto).bind
      exact fun next nextInto => ih wiped nextInto

theorem applyPatch_closed (closed : Closed region root heap) (patchInto : Into region patch) :
    Ensures (heap.applyPatch fuel (some root) patch caseSensitive) fun result => Closed region root result.2 := by
  by_cases overwrites : heap.Overwrites fuel patch caseSensitive
  · exact (applyPatch_wipes closed.confined overwrites).mono fun _ wiped => wiped.closed
  · have rootInto : Into (insert root region) (some root) := into_some.mpr (Set.mem_insert _ _)
    exact (applyPatch_confined closed.confined rootInto patchInto.insert overwrites).mono
      fun _ confined => confined.toClosed

/-- If the run comes to a patch that overwrites the root, the root ends without
`prev`.  No later patch links the root anywhere, so it stays without. -/
theorem applyPatchesLoop_wipes {current : Pointer} {later : Nat} {final : Heap} {patch : Addr}
    (comes : ComesTo (some root) caseSensitive fuel heap current later final patch)
    (overwrites : final.Overwrites later (some patch) caseSensitive) (closed : Closed region root heap)
    (currentInto : Into region current) :
    Ensures (Heap.applyPatchesLoop (some root) caseSensitive fuel heap current) fun result =>
      Wiped region root result.2 := by
  induction comes with
  | @here fuel heap patch =>
      cases fuel with
      | zero => exact .error
      | succ fuel =>
          apply Ensures.ite
          · exact fun impossible => absurd impossible Bool.false_ne_true
          intro _
          apply (applyPatch_wipes closed.confined overwrites).bind
          rintro ⟨status, heap⟩ wiped
          apply Ensures.ite
          · exact fun _ => .ok wiped
          intro _
          apply (wiped.closed.confined.next currentInto).bind
          exact fun next nextInto => applyPatchesLoop_wiped wiped nextInto
  | @later fuel later heap after final current patch next applied read rest ih =>
      have after := (applyPatch_closed closed currentInto).elim applied
      have nextInto := (after.confined.next currentInto).elim read
      rw [applyPatchesLoop, Option.isNone_some, if_neg Bool.false_ne_true, applied, Except.ok_bind]
      dsimp only
      rw [if_neg (fun different => different rfl), read, Except.ok_bind]
      exact ih overwrites after nextInto

/-! ## The siblings -/

/-- The nodes that pointers lead to from a node, over siblings to either side and over
children.  It is all that a function can come to that is given this node and nothing
else. -/
inductive Reaches (heap : Heap) (start : Addr) : Addr -> Prop
  | refl : Reaches heap start start
  | next {node other : Addr} :
      Reaches heap start node -> heap.links.next node = some other -> Reaches heap start other
  | prev {node other : Addr} :
      Reaches heap start node -> heap.links.prev node = some other -> Reaches heap start other
  | child {node other : Addr} : Reaches heap start node -> heap.childOf node = some other -> Reaches heap start other

/-- What is below the member and below the patch array has no node in common with the
container and its list.  No tree does that to itself; what is excluded is that a reference,
or a child that is shared, leads back into the list.  The patch array itself may be a
member of the same container. -/
def Apart (heap : Heap) (container : Addr) (nodes : List Addr) (member : Addr) (patches : Pointer) : Prop :=
  ∀ start, heap.childOf member = some start ∨ patches.bind heap.childOf = some start ->
    ∀ node ∈ container :: nodes, ¬ heap.Reaches start node

/-- The children of the container are these nodes, well linked, and the member has the
name it had. -/
def Undisturbed (heap after : Heap) (container : Addr) (nodes : List Addr) (member : Addr) : Prop :=
  after.links.WellLinked (after.childOf container) nodes ∧
    (after.fieldsOf member).string = (heap.fieldsOf member).string

/-- The document below the member, the patches, and the addresses that are new. -/
def territory (heap : Heap) (member : Addr) (patches : Pointer) : Set Addr :=
  {node | heap.unused ≤ node ∨
    ∃ start, (heap.childOf member = some start ∨ patches.bind heap.childOf = some start) ∧ heap.Reaches start node}

variable {container member : Addr} {nodes : List Addr}

theorem Apart.not_mem_territory (apart : heap.Apart container nodes member patches)
    (used : ∀ node, heap.allocated node = true -> node < heap.unused)
    (live : heap.AllLive (container :: nodes)) {node : Addr} (inside : node ∈ container :: nodes) :
    node ∉ heap.territory member patches := by
  rintro (new | ⟨start, isStart, reaches⟩)
  · exact Nat.not_lt_of_le new (used node (live node inside))
  · exact apart start isStart node inside reaches

theorem Apart.closed (apart : heap.Apart container nodes member patches)
    (used : ∀ node, heap.allocated node = true -> node < heap.unused)
    (live : heap.AllLive (container :: nodes)) (isMember : member ∈ nodes) :
    Closed (heap.territory member patches) member heap := by
  have old : ∀ node, heap.allocated node = true -> ¬ heap.unused ≤ node :=
    fun node isLive => Nat.not_le_of_lt (used node isLive)
  refine ⟨used, fun node new => Or.inl new,
    apart.not_mem_territory used live (List.mem_cons_of_mem _ isMember), ?_, ?_, ?_⟩
  · rintro node (new | ⟨start, isStart, reaches⟩) isLive other link
    · exact absurd new (old node isLive)
    · exact Or.inr ⟨start, isStart, reaches.next link⟩
  · rintro node (new | ⟨start, isStart, reaches⟩) isLive other link
    · exact absurd new (old node isLive)
    · exact Or.inr ⟨start, isStart, reaches.prev link⟩
  · rintro node (rfl | new | ⟨start, isStart, reaches⟩) isLive other link
    · exact Or.inr ⟨other, Or.inl link, .refl⟩
    · exact absurd new (old node isLive)
    · exact Or.inr ⟨start, isStart, reaches.child link⟩

/-- What is confined to the territory leaves the list alone, provided that no node of
the list lies in the territory. -/
theorem Confined.undisturbed (confined : Confined (heap.territory member patches) member heap after)
    (apart : heap.Apart container nodes member patches)
    (used : ∀ node, heap.allocated node = true -> node < heap.unused)
    (live : heap.AllLive (container :: nodes)) (isMember : member ∈ nodes)
    (linked : heap.links.WellLinked (heap.childOf container) nodes) :
    heap.Undisturbed after container nodes member := by
  have outside : ∀ node ∈ container :: nodes, node ∉ heap.territory member patches :=
    fun node inside => apart.not_mem_territory used live inside
  have notMember : container ≠ member := by
    rintro rfl
    -- the first node of the list would be below the member
    have first : heap.childOf container = nodes.head? := linked.1
    rcases List.exists_cons_of_ne_nil (List.ne_nil_of_mem isMember) with ⟨head, rest, rfl⟩
    exact apart head (Or.inl first) head (List.mem_cons_of_mem _ List.mem_cons_self) .refl
  have sameChild : after.childOf container = heap.childOf container := by
    apply confined.sameChild
    rintro (same | inside)
    · exact notMember same
    · exact outside container List.mem_cons_self inside
  constructor
  · rw [sameChild]
    apply linked.congr
    intro node inside
    have notThere := outside node (List.mem_cons_of_mem _ inside)
    exact ⟨confined.sameNext node notThere, confined.samePrev node notThere⟩
  · rw [confined.sameFields member (outside member (List.mem_cons_of_mem _ isMember))]

/-- Every node of a well linked list has a `prev`. -/
theorem prev_ne_none_of_wellLinked {links : Links Addr} {head : Pointer} (linked : links.WellLinked head nodes)
    (isMember : member ∈ nodes) : links.prev member ≠ none := by
  rcases List.append_of_mem isMember with ⟨front, back, rfl⟩
  rw [linked.2.at.1]
  simp

/-- No patch that `cJSONUtils_ApplyPatches` comes to overwrites the document.  Where
the patches are no array it comes to none. -/
def PatchesBelow (fuel : Nat) (heap : Heap) (object patches : Pointer) (caseSensitive : Bool) : Prop :=
  heap.hasBase patches .array = .ok true -> ∀ first, heap.child patches = .ok first ->
    heap.NeverOverwrites fuel object first caseSensitive

/-- Patching a member of a container leaves the container's list and the member's name
as they were exactly if no patch of the run overwrites the member. -/
theorem applyPatches_undisturbed_iff {status : Nat}
    (used : ∀ node, heap.allocated node = true -> node < heap.unused)
    (live : heap.AllLive (container :: nodes)) (linked : heap.links.WellLinked (heap.childOf container) nodes)
    (isMember : member ∈ nodes) (apart : heap.Apart container nodes member patches)
    (ran : heap.cjsonUtilsApplyPatches fuel (some member) patches caseSensitive = .ok (status, after)) :
    heap.Undisturbed after container nodes member ↔
      heap.PatchesBelow fuel (some member) patches caseSensitive := by
  have closed := apart.closed used live isMember
  rw [cjsonUtilsApplyPatches] at ran
  rcases Except.bind_eq_ok.mp ran with ⟨isArray, base, ran⟩
  cases isArray with
  | false =>
      cases ran
      have below : heap.PatchesBelow fuel (some member) patches caseSensitive := by
        intro array
        rw [base] at array
        cases array
      exact iff_of_true (closed.confined.undisturbed apart used live isMember linked) below
  | true =>
      rcases Except.bind_eq_ok.mp ran with ⟨first, read, ran⟩
      have firstInto : Into (heap.territory member patches) first := by
        rintro start rfl
        rcases Except.bind_eq_ok.mp read with ⟨top, accessed, sameChild⟩
        rw [(access_ensures.elim accessed).1]
        exact Or.inr ⟨start, Or.inr (Except.ok.inj sameChild), .refl⟩
      constructor
      · intro undisturbed _ other alsoRead later final patch comes overwrites
        rw [read] at alsoRead
        cases alsoRead
        have wiped := (applyPatchesLoop_wipes comes overwrites closed firstInto).elim ran
        exact prev_ne_none_of_wellLinked undisturbed.1 isMember wiped.prev
      · intro below
        have confined := (applyPatchesLoop_confined closed.confined firstInto (below base first read)).elim ran
        exact confined.undisturbed apart used live isMember linked

/-- An object with the members `a` and `b`, and the patches
`[{"op": "remove", "path": path}]`. -/
def twoSiblings (path : Bytes) : Heap where
  allocated node := node < 7
  unused := 7
  links := {
    next := fun node => match node with
      | 1 => some 2
      | 5 => some 6
      | _ => none
    prev := fun node => match node with
      | 1 => some 2
      | 2 => some 1
      | 4 => some 4
      | 5 => some 6
      | 6 => some 5
      | _ => none }
  childOf node := match node with
    | 0 => some 1
    | 3 => some 4
    | 4 => some 5
    | _ => none
  fieldsOf node := match node with
    | 1 => { type_ := { base := .null }, string := some [97, 0] }
    | 2 => { type_ := { base := .null }, string := some [98, 0] }
    | 3 => { type_ := { base := .array } }
    | 5 => { type_ := { base := .string }, valuestring := some (removeText ++ [0]), string := some (opName ++ [0]) }
    | 6 => { type_ := { base := .string }, valuestring := some (path ++ [0]), string := some (pathName ++ [0]) }
    | _ => { type_ := { base := .object } }
  hooks := ⟨fun _ _ => true, true⟩

theorem twoSiblings_wellLinked (path : Bytes) :
    (twoSiblings path).links.WellLinked ((twoSiblings path).childOf 0) [1, 2] :=
  ⟨rfl, rfl, rfl, rfl, rfl, trivial⟩

theorem twoSiblings_apart (path : Bytes) : (twoSiblings path).Apart 0 [1, 2] 1 (some 3) := by
  have stays : ∀ node, (twoSiblings path).Reaches 4 node -> 4 ≤ node := by
    intro node reaches
    induction reaches with
    | refl => exact le_rfl
    | next _ link ih | prev _ link ih | child _ link ih =>
        dsimp only [twoSiblings] at link
        split at link <;> cases link <;> first | exact absurd ih (by decide) | decide
  rintro start (below | top) node inside reaches
  · cases below
  · cases top
    have early : ∀ node ∈ [0, 1, 2], ¬ 4 ≤ node := by decide
    exact early node inside (stays node reaches)

theorem twoSiblings_used (path : Bytes) (node : Addr) (live : (twoSiblings path).allocated node = true) :
    node < (twoSiblings path).unused :=
  of_decide_eq_true live

theorem applyPatches_undisturbed_iff_remove :
    ∃ after, (twoSiblings []).cjsonUtilsApplyPatches 8 (some 1) (some 3) true = .ok (0, after) ∧
      ((twoSiblings []).Undisturbed after 0 [1, 2] 1 ↔
        (twoSiblings []).PatchesBelow 8 (some 1) (some 3) true) :=
  ⟨_, rfl, applyPatches_undisturbed_iff (twoSiblings_used []) (by unfold AllLive; decide) (twoSiblings_wellLinked [])
    (by decide) (twoSiblings_apart []) rfl⟩

theorem siblings_disturbed : (twoSiblings []).AllLive [0, 1, 2] ∧
    (twoSiblings []).links.WellLinked ((twoSiblings []).childOf 0) [1, 2] ∧
    (twoSiblings []).Apart 0 [1, 2] 1 (some 3) ∧
    ∃ after, (twoSiblings []).cjsonUtilsApplyPatches 8 (some 1) (some 3) true = .ok (0, after) ∧
      ¬ (twoSiblings []).Undisturbed after 0 [1, 2] 1 := by
  refine ⟨by unfold AllLive; decide, twoSiblings_wellLinked [], twoSiblings_apart [], _, rfl, ?_⟩
  rintro ⟨⟨_, linked⟩, _⟩
  exact absurd linked.1 (by decide)

end Heap
end CJson
