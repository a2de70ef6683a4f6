import CJson.Growth

/-!
# Duplicating trees

`cjson_duplicate` on blocks: whatever the allocator answers, and whatever the
source looks like, it leaves either a finished tree in new blocks or the memory as
it was.  From a source that can be read to its end it does return; and the tree is
a copy, unless there are more levels than it goes down.
-/

namespace CJson

open Layout

namespace Memory

variable {memory after : Memory} {safe : Prop}

/-! ## Strings -/

theorem Grows.cString {blocks : List Addr} (grows : memory.Grows after blocks) {string : Option CharPointer}
    {content : Bytes} (reads : memory.cString string = .ok content) : after.cString string = .ok content := by
  cases string with
  | none => cases reads
  | some pointer =>
      rw [Memory.cString] at reads ⊢
      cases live : memory.cells pointer.block with
      | none =>
          rw [live] at reads
          cases reads
      | some cell =>
          rw [live] at reads
          rw [grows.found live]
          exact reads

/-- The string can be copied: there is none, or it is a C string, with a terminator
inside its block. -/
def Legible (memory : Memory) (string : Option CharPointer) : Prop :=
  string = none ∨ ∃ content, memory.cString string = .ok content

theorem Grows.legible {blocks : List Addr} (grows : memory.Grows after blocks) {string : Option CharPointer}
    (legible : memory.Legible string) : after.Legible string := by
  rcases legible with none | ⟨content, reads⟩
  · exact Or.inl none
  · exact Or.inr ⟨content, grows.cString reads⟩

theorem strdup_completes {string : Option CharPointer} (legible : safe -> memory.Legible string) :
    Completes safe (fun _ => memory.strdup string) (memory.Copied string) := by
  apply Completes.of_ensures (strdup_ensures memory string)
  intro holds
  rcases strdup_returns (legible holds) with ⟨result, ends, _⟩
  exact ⟨result, ends⟩

/-- The block is a copy of the string, up to its terminator.  It is there if and only
if there was a string. -/
structure TextCopy (memory after : Memory) (string : Option CharPointer) (block : Option Addr) : Prop where
  present : block.isSome = string.isSome
  same : ∀ content, memory.cString string = .ok content ->
    ∃ own, block = some own ∧ after.cells own = some (.text (content ++ [0]))

theorem TextCopy.kept {later : Memory} {string : Option CharPointer} {block : Option Addr}
    (copied : TextCopy memory after string block)
    (kept : ∀ own ∈ block.toList, later.cells own = after.cells own) : TextCopy memory later string block where
  present := copied.present
  same := by
    intro content reads
    rcases copied.same content reads with ⟨own, rfl, cell⟩
    exact ⟨own, rfl, (kept own (Option.mem_toList.mpr rfl)).trans cell⟩

/-- A string that was there before is the same string later. -/
theorem TextCopy.before {earlier : Memory} {blocks : List Addr} {string : Option CharPointer} {block : Option Addr}
    (copied : TextCopy memory after string block) (grows : earlier.Grows memory blocks) :
    TextCopy earlier after string block where
  present := copied.present
  same content reads := copied.same content (grows.cString reads)

/-- What `duplicateText` leaves: a copy in a block of its own, or nothing where the
hooks have refused.  Without a string to copy it succeeds and takes no block. -/
def TextDuplicated (memory : Memory) (string : Option CharPointer) : Option (Option CharPointer) × Memory -> Prop
  | (none, after) => memory.Grows after [] ∧ ¬ memory.hooks.AlwaysSucceed
  | (some copy, after) => ∃ block : Option Addr, copy = block.map (CharPointer.mk · 0) ∧
      memory.Grows after block.toList ∧ TextCopy memory after string block

theorem duplicateText_completes {string : Option CharPointer} (legible : safe -> memory.Legible string) :
    Completes safe (fun _ => memory.duplicateText string) (memory.TextDuplicated string) := by
  unfold duplicateText
  cases string with
  | none =>
      refine Completes.ok ⟨none, rfl, Grows.refl memory, rfl, ?_⟩
      intro content reads
      cases reads
  | some pointer =>
      apply (strdup_completes legible).bind
      rintro ⟨copy, after⟩ copied
      apply Completes.ok
      cases copy with
      | none =>
          rcases copied with ⟨grows, impossible | refused⟩
          · cases impossible
          · exact ⟨grows, refused⟩
      | some copy =>
          rcases copy with ⟨block, offset⟩
          rcases copied with ⟨grows, rfl, content, reads, cell⟩
          refine ⟨some block, rfl, grows, rfl, ?_⟩
          intro other again
          rw [reads] at again
          cases again
          exact ⟨block, rfl, cell⟩

/-- The member name of a copy: shared if it is constant, and in a block of its own
otherwise. -/
def NameCopy (memory after : Memory) (record : Record) (name : Option CharPointer) (block : Option Addr) : Prop :=
  if record.type_.stringIsConst then block = none ∧ name = record.string
  else name = block.map (CharPointer.mk · 0) ∧ TextCopy memory after record.string block

theorem NameCopy.owned {record : Record} {name : Option CharPointer} {block : Option Addr}
    (named : NameCopy memory after record name block) :
    if record.type_.stringIsConst then block = none else name = block.map (CharPointer.mk · 0) := by
  rw [NameCopy] at named
  split
  next const =>
    rw [if_pos const] at named
    exact named.1
  next const =>
    rw [if_neg const] at named
    exact named.1

theorem NameCopy.kept {later : Memory} {record : Record} {name : Option CharPointer} {block : Option Addr}
    (named : NameCopy memory after record name block)
    (kept : ∀ own ∈ block.toList, later.cells own = after.cells own) : NameCopy memory later record name block := by
  rw [NameCopy] at named ⊢
  split
  next const =>
    rw [if_pos const] at named
    exact named
  next const =>
    rw [if_neg const] at named
    exact ⟨named.1, named.2.kept kept⟩

theorem NameCopy.before {earlier : Memory} {blocks : List Addr} {record : Record} {name : Option CharPointer}
    {block : Option Addr} (named : NameCopy memory after record name block) (grows : earlier.Grows memory blocks) :
    NameCopy earlier after record name block := by
  rw [NameCopy] at named ⊢
  split
  next const =>
    rw [if_pos const] at named
    exact named
  next const =>
    rw [if_neg const] at named
    exact ⟨named.1, named.2.before grows⟩

/-- What `duplicateName` leaves. -/
def NameDuplicated (memory : Memory) (record : Record) : Option (Option CharPointer) × Memory -> Prop
  | (none, after) => memory.Grows after [] ∧ ¬ memory.hooks.AlwaysSucceed
  | (some name, after) => ∃ block : Option Addr, memory.Grows after block.toList ∧
      NameCopy memory after record name block

theorem duplicateName_completes {record : Record}
    (legible : safe -> record.type_.stringIsConst = false -> memory.Legible record.string) :
    Completes safe (fun _ => memory.duplicateName record) (memory.NameDuplicated record) := by
  unfold duplicateName
  cases const : record.type_.stringIsConst with
  | false =>
      rw [Bool.and_false, if_neg Bool.false_ne_true]
      apply (duplicateText_completes (fun holds => legible holds const)).mono
      rintro ⟨copy, after⟩ copied
      cases copy with
      | none => exact copied
      | some copy =>
          rcases copied with ⟨block, own, grows, text⟩
          exact ⟨block, grows, by rw [NameCopy, if_neg (by simp [const])]; exact ⟨own, text⟩⟩
  | true =>
      have shared : memory.NameDuplicated record (some record.string, memory) :=
        ⟨none, Grows.refl memory, by rw [NameCopy, if_pos const]; exact ⟨rfl, rfl⟩⟩
      cases name : record.string with
      | none =>
          rw [name] at shared
          exact Completes.ok shared
      | some pointer =>
          rw [name] at shared
          exact Completes.ok shared

/-! ## Nodes -/

/-- The strings of a node can be copied; a constant name need not be, since nobody
reads it. -/
def Record.Legible (memory : Memory) (record : Record) : Prop :=
  memory.Legible record.valuestring ∧ (record.type_.stringIsConst = false -> memory.Legible record.string)

/-- The fields of a copy: those of the source, but for the flag that makes it a
reference, and with strings of its own. -/
structure FieldsCopied (memory after : Memory) (source copy : Record) (valuestring string : Option Addr) : Prop where
  type_ : copy.type_ = { source.type_ with isReference := false }
  valueint : copy.valueint = source.valueint
  valuedouble : copy.valuedouble = source.valuedouble
  valuestring : TextCopy memory after source.valuestring valuestring
  string : NameCopy memory after source copy.string string

theorem FieldsCopied.kept {before : Memory} {source copy other : Record} {valuestring string : Option Addr}
    (copied : FieldsCopied before memory source copy valuestring string)
    (kept : ∀ block ∈ valuestring.toList ++ string.toList, after.cells block = memory.cells block)
    (type : other.type_ = copy.type_) (int : other.valueint = copy.valueint)
    (double : other.valuedouble = copy.valuedouble) (name : other.string = copy.string) :
    FieldsCopied before after source other valuestring string where
  type_ := type.trans copied.type_
  valueint := int.trans copied.valueint
  valuedouble := double.trans copied.valuedouble
  valuestring := copied.valuestring.kept (fun block inside => kept block (List.mem_append_left _ inside))
  string := name ▸ copied.string.kept (fun block inside => kept block (List.mem_append_right _ inside))

theorem FieldsCopied.before {earlier : Memory} {blocks : List Addr} {source copy : Record}
    {valuestring string : Option Addr}
    (copied : FieldsCopied memory after source copy valuestring string) (grows : earlier.Grows memory blocks) :
    FieldsCopied earlier after source copy valuestring string :=
  ⟨copied.type_, copied.valueint, copied.valuedouble, copied.valuestring.before grows, copied.string.before grows⟩

theorem Grows.read {blocks : List Addr} (grows : memory.Grows after blocks) {pointer : Pointer} {record : Record}
    (reads : memory.read pointer = .ok record) : after.read pointer = .ok record := by
  rcases read_eq_ok reads with ⟨node, rfl, live⟩
  exact read_eq (grows.found live)

theorem Growing.fail {before : Memory} {node : Addr} {valuestring string : Option Addr} {children : List Layout}
    {record : Record} (growing : Growing before memory node valuestring string children record) :
    Completes safe (fun fuel => memory.gotoFail fuel (some node))
      (fun result => result.1 = none ∧ before.Grows result.2 []) :=
  (growing.discard safe).bind (fun _ grows => Completes.ok ⟨rfl, grows⟩)

/-- What `duplicateNode` leaves: a node without children whose strings are copies, or
nothing at all.  It has deleted its own work where a later request was refused. -/
def NodeDuplicated (memory : Memory) (item : Pointer) : Pointer × Memory -> Prop
  | (none, after) => memory.Grows after [] ∧ ¬ memory.hooks.AlwaysSucceed
  | (some node, after) => ∃ valuestring string copy, Growing memory after node valuestring string [] copy ∧
      ∀ source, memory.read item = .ok source -> FieldsCopied memory after source copy valuestring string

theorem duplicateNode_completes {item : Pointer}
    (legible : safe -> ∃ source, memory.read item = .ok source ∧ Record.Legible memory source) :
    Completes safe (fun fuel => memory.duplicateNode fuel item) (memory.NodeDuplicated item) := by
  unfold duplicateNode
  rcases newItem_grows memory with ⟨middle, made, begun, refused⟩ | ⟨node, middle, made, begun, cell⟩
  · simp only [made]
    exact Completes.ok ⟨begun, refused⟩
  simp only [made]
  have start : Growing memory middle node none none [] {} :=
    ⟨⟨begun, ⟨cell, rfl, rfl, rfl, List.forall_mem_nil _⟩, trivial, trivial⟩, rfl, rfl, rfl, trivial⟩
  have readable : safe -> ∃ source, middle.read item = .ok source ∧ Record.Legible memory source := by
    intro holds
    rcases legible holds with ⟨source, reads, strings⟩
    exact ⟨source, begun.read reads, strings⟩
  apply (Completes.known (fun holds => (readable holds).imp (fun _ both => both.1))).bind
  intro source reads
  have strings : safe -> Record.Legible memory source := by
    intro holds
    rcases readable holds with ⟨other, again, both⟩
    rw [reads] at again
    cases again
    exact both
  have unnamed : (if source.type_.stringIsConst then (none : Option Addr) = none
      else (none : Option CharPointer) = (none : Option Addr).map (CharPointer.mk · 0)) := by
    split <;> rfl
  apply (Completes.of_returns (start.change (Grows.refl middle) (fun copy => { copy with
    type_ := { source.type_ with isReference := false }
    valueint := source.valueint
    valuedouble := source.valuedouble }) none none ⟨rfl, rfl, rfl⟩ rfl rfl unnamed (List.Perm.refl _))).bind
  rintro second ⟨typed, _⟩
  apply (duplicateText_completes (fun holds => typed.grows.legible (strings holds).1)).bind
  rintro ⟨copied, third⟩ duplicated
  cases copied with
  | none =>
      rcases duplicated with ⟨grows, refused⟩
      apply (typed.unchanged grows).fail.mono
      rintro ⟨result, last⟩ ⟨rfl, grown⟩
      exact ⟨grown, fun succeeds => refused (typed.grows.succeeds succeeds)⟩
  | some valuestring =>
      rcases duplicated with ⟨block, own, grows, text⟩
      apply (Completes.of_returns (typed.change grows
        (fun copy => { copy with valuestring := valuestring }) block none
        ⟨rfl, rfl, rfl⟩ rfl own unnamed (by simp))).bind
      rintro fourth ⟨valued, besides⟩
      apply (duplicateName_completes (fun holds const => valued.grows.legible ((strings holds).2 const))).bind
      rintro ⟨copied, fifth⟩ duplicated
      cases copied with
      | none =>
          rcases duplicated with ⟨grows, refused⟩
          apply (valued.unchanged grows).fail.mono
          rintro ⟨result, last⟩ ⟨rfl, grown⟩
          exact ⟨grown, fun succeeds => refused (valued.grows.succeeds succeeds)⟩
      | some name =>
          rcases duplicated with ⟨nameBlock, moreGrows, named⟩
          apply (Completes.of_returns (valued.change moreGrows
            (fun copy => { copy with string := name }) block nameBlock
            ⟨rfl, rfl, rfl⟩ rfl own named.owned (by simp))).bind
          rintro last ⟨finished, beyond⟩
          refine Completes.ok ⟨block, nameBlock, _, finished, ?_⟩
          intro other again
          rw [begun.read again] at reads
          cases reads
          have apart : ∀ text ∈ block.toList ++ nameBlock.toList, last.cells text = fifth.cells text := by
            intro text inside
            exact beyond text (finished.strings_outside text inside).1
          refine ⟨rfl, rfl, rfl, ?_, ?_⟩
          · apply (text.before typed.grows).kept
            intro text inside
            have valueIn : text ∈ block.toList ++ (none : Option Addr).toList := List.mem_append_left _ inside
            calc last.cells text
                = fifth.cells text := apart text (List.mem_append_left _ inside)
              _ = fourth.cells text := moreGrows.cells text (moreGrows.outside (valued.held.live text valueIn))
              _ = third.cells text := besides text (valued.strings_outside text valueIn).1
          · apply (named.before valued.grows).kept
            intro text inside
            exact apart text (List.mem_append_right _ inside)

/-! ## All or nothing -/

/-- A finished tree, or nothing.  After a failure the memory is what it was, down to
the last block. -/
def Built (memory : Memory) : Pointer × Memory -> Prop
  | (none, after) => memory.Grows after []
  | (some node, after) => ∃ layout : Layout, layout.node = node ∧ memory.Made after layout

/-- What the loop over the children leaves: the tree with all of them, or nothing. -/
def ChildrenBuilt (before : Memory) (node : Addr) (valuestring string : Option Addr) (record : Record) :
    Option Pointer × Memory -> Prop
  | (none, after) => before.Grows after []
  | (some last, after) => ∃ child children, last = (children.map Layout.node).getLast? ∧
      Growing before after node valuestring string children { record with child := child }

/-- However the source is linked, and whatever the allocator answers, `duplicate_rec`
leaves a finished tree or nothing. -/
theorem duplicate_ensures (fuel : Nat) :
    (∀ memory item depth recurse, Ensures (duplicateRec fuel memory item depth recurse) memory.Built) ∧
    ∀ {before memory node valuestring string children record} child depth,
      Growing before memory node valuestring string children record ->
        Ensures (duplicateChildren fuel memory (some node) child (children.map Layout.node).getLast? depth)
          (ChildrenBuilt before node valuestring string record) := by
  induction fuel with
  | zero => exact ⟨fun _ _ _ _ => trivial, fun _ _ _ => trivial⟩
  | succ fuel hypothesis =>
      constructor
      · intro memory item depth recurse
        unfold duplicateRec
        apply Ensures.ite
        · intro _
          exact Ensures.ok (Grows.refl memory)
        intro _
        apply ((duplicateNode_completes False.elim).ensures (fuel + 1)).bind
        rintro ⟨newitem, middle⟩ duplicated
        cases newitem with
        | none => exact Ensures.ok duplicated.1
        | some node =>
            rcases duplicated with ⟨valuestring, string, copy, growing, _⟩
            apply Ensures.ite
            · intro impossible
              cases impossible
            intro _
            apply Ensures.ite
            · intro _
              exact Ensures.ok ⟨_, rfl, growing.made⟩
            intro _
            apply Ensures.step
            intro record
            apply (hypothesis.2 record.child depth growing).bind
            rintro ⟨last, after⟩ built
            cases last with
            | none => exact Ensures.ok built
            | some last =>
                rcases built with ⟨child, children, rfl, growing⟩
                apply Ensures.bind (Yields.of_returns growing.close)
                rintro final ⟨made, _⟩
                exact Ensures.ok ⟨_, rfl, made⟩
      · intro before memory node valuestring string children record child depth growing
        unfold duplicateChildren
        apply Ensures.ite
        · intro _
          exact Ensures.ok ⟨record.child, children, rfl, growing⟩
        intro _
        apply Ensures.ite
        · intro _
          exact ((growing.discard True).ensures (fuel + 1)).bind (fun _ grows => Ensures.ok grows)
        intro _
        apply (hypothesis.1 memory child (depth + 1) true).bind
        rintro ⟨newchild, middle⟩ built
        cases newchild with
        | none =>
            exact (((growing.unchanged built).discard True).ensures (fuel + 1)).bind
              (fun _ grows => Ensures.ok grows)
        | some newchild =>
            rcases built with ⟨layout, rfl, made⟩
            apply Ensures.bind (Yields.of_returns (growing.attach made))
            rintro after ⟨⟨first, grown⟩, _⟩
            apply Ensures.step
            intro source
            have built := hypothesis.2 source.next depth grown
            rw [List.map_append, List.map_singleton, List.getLast?_concat] at built
            exact built

/-! ## Node graphs -/

/-- From the pointer on, `next` leads through these nodes to the end.  What `prev`
holds does not matter to a copy. -/
def Siblings (memory : Memory) : Pointer -> List Addr -> Prop
  | pointer, [] => pointer = none
  | pointer, node :: rest => pointer = some node ∧
      ∃ record, memory.cells node = some (.node record) ∧ Siblings memory record.next rest

/-- The element is in the child list of the node. -/
def Child (memory : Memory) (node element : Addr) : Prop :=
  ∃ record nodes, memory.cells node = some (.node record) ∧ memory.Siblings record.child nodes ∧ element ∈ nodes

/-- A path of so many child links starts at the node.  The nodes on it may repeat, and
where the links form a cycle there are paths of every length. -/
def Path (memory : Memory) : Nat -> Addr -> Prop
  | 0, _ => True
  | length + 1, node => ∃ element, memory.Child node element ∧ Path memory length element

/-- Whatever can be reached over child links is a node with strings that can be
copied, and with a child list that ends.  The links may well form cycles: what is
asked is that every single list is finite, and not that the tree is. -/
def Readable (memory : Memory) (item : Addr) : Prop :=
  ∀ node, Relation.ReflTransGen memory.Child item node ->
    ∃ record nodes, memory.cells node = some (.node record) ∧ Record.Legible memory record ∧
      memory.Siblings record.child nodes

theorem Siblings.unique {pointer : Pointer} {first second : List Addr} (one : memory.Siblings pointer first)
    (other : memory.Siblings pointer second) : first = second := by
  induction first generalizing pointer second with
  | nil =>
      obtain rfl : pointer = none := one
      cases second with
      | nil => rfl
      | cons node rest => cases other.1
  | cons node first hypothesis =>
      rcases one with ⟨rfl, record, found, rest⟩
      cases second with
      | nil => cases other
      | cons node second =>
          rcases other with ⟨same, record', found', rest'⟩
          cases same
          rw [found] at found'
          cases found'
          rw [hypothesis rest rest']

theorem Path.shorter {length more : Nat} (fits : length ≤ more) {item : Addr} (path : memory.Path more item) :
    memory.Path length item := by
  induction length generalizing more item with
  | zero => trivial
  | succ length hypothesis =>
      cases more with
      | zero => exact absurd fits (Nat.not_succ_le_zero _)
      | succ more =>
          rcases path with ⟨element, child, path⟩
          exact ⟨element, child, hypothesis (Nat.le_of_succ_le_succ fits) path⟩

/-- The elements of the child list. -/
theorem child_iff {item element : Addr} {record : Record} {nodes : List Addr}
    (found : memory.cells item = some (.node record)) (siblings : memory.Siblings record.child nodes) :
    memory.Child item element ↔ element ∈ nodes := by
  constructor
  · rintro ⟨other, others, again, listed, member⟩
    rw [found] at again
    cases again
    exact siblings.unique listed ▸ member
  · intro member
    exact ⟨record, nodes, found, siblings, member⟩

theorem Readable.child {item element : Addr} (readable : memory.Readable item) (child : memory.Child item element) :
    memory.Readable element :=
  fun node reached => readable node (Relation.ReflTransGen.head child reached)

end Memory

/-! ## Copies -/

mutual

/-- The tree is a copy of the tree below the item, as that was before: the same fields
at every position, each string in a block of its own, and the children in order.  The
source may be shared or cyclic; the copy is a tree. -/
def Layout.CopyOf (before memory : Memory) : Layout -> Addr -> Prop
  | mk node valuestring string children, item =>
      ∃ source copy nodes, before.cells item = some (.node source) ∧ memory.cells node = some (.node copy) ∧
        Memory.FieldsCopied before memory source copy valuestring string ∧
        before.Siblings source.child nodes ∧ Layout.AllCopyOf before memory children nodes

def Layout.AllCopyOf (before memory : Memory) : List Layout -> List Addr -> Prop
  | [], nodes => nodes = []
  | layout :: rest, nodes =>
      ∃ item others, nodes = item :: others ∧ layout.CopyOf before memory item ∧
        Layout.AllCopyOf before memory rest others

end

namespace Layout

variable {before memory after : Memory}

/-- A copy depends on its blocks only: as long as these keep their cells it is a copy
of the same tree, whatever else happens to the memory. -/
theorem copyOf_congr_all :
    (∀ layout : Layout, ∀ item, layout.CopyOf before memory item ->
      (∀ block ∈ layout.blocks, after.cells block = memory.cells block) -> layout.CopyOf before after item) ∧
    ∀ layouts nodes, AllCopyOf before memory layouts nodes ->
      (∀ block ∈ blocksOf layouts, after.cells block = memory.cells block) ->
        AllCopyOf before after layouts nodes := by
  apply Layout.induction
  · rintro node valuestring string children below item
      ⟨source, copy, nodes, found, cell, fields, siblings, copies⟩ same
    refine ⟨source, copy, nodes, found, (same node (node_mem_blocks _)).trans cell, ?_, siblings, ?_⟩
    · refine fields.kept ?_ rfl rfl rfl rfl
      intro block inside
      exact same block (mem_blocks_of_strings inside)
    · exact below nodes copies (fun block inside => same block (mem_blocks_of_children inside))
  · intro nodes empty _
    exact empty
  · rintro layout rest one many _ ⟨item, others, rfl, first, copies⟩ same
    refine ⟨item, others, rfl, ?_, ?_⟩
    · exact one item first (fun block inside => same block (List.mem_append_left _ inside))
    · exact many others copies (fun block inside => same block (List.mem_append_right _ inside))

theorem CopyOf.kept {layout : Layout} {item : Addr} (copied : layout.CopyOf before memory item)
    (kept : layout.Kept memory after) : layout.CopyOf before after item := by
  cases layout with
  | mk node valuestring string children =>
      rcases copied with ⟨source, copy, nodes, found, cell, fields, siblings, copies⟩
      rcases kept.root copy cell with ⟨next, prev, moved⟩
      have inner : ∀ block ∈ valuestring.toList ++ (string.toList ++ blocksOf children),
          after.cells block = memory.cells block := kept.inner
      refine ⟨source, _, nodes, found, moved, ?_, siblings, ?_⟩
      · refine fields.kept ?_ rfl rfl rfl rfl
        intro block inside
        apply inner
        rw [← List.append_assoc]
        exact List.mem_append_left _ inside
      · apply copyOf_congr_all.2 children nodes copies
        intro block inside
        exact inner block (List.mem_append_right _ (List.mem_append_right _ inside))

theorem AllCopyOf.kept {layouts : List Layout} {nodes : List Addr} (copied : AllCopyOf before memory layouts nodes)
    (kept : ∀ layout ∈ layouts, layout.Kept memory after) : AllCopyOf before after layouts nodes := by
  induction layouts generalizing nodes with
  | nil => exact copied
  | cons layout layouts hypothesis =>
      rcases copied with ⟨item, others, rfl, first, copies⟩
      exact ⟨item, others, rfl, first.kept (kept layout List.mem_cons_self),
        hypothesis copies (fun later member => kept later (List.mem_cons_of_mem _ member))⟩

theorem AllCopyOf.concat {layouts : List Layout} {nodes : List Addr} (copied : AllCopyOf before memory layouts nodes)
    {layout : Layout} {item : Addr} (last : layout.CopyOf before memory item) :
    AllCopyOf before memory (layouts ++ [layout]) (nodes ++ [item]) := by
  induction layouts generalizing nodes with
  | nil =>
      obtain rfl : nodes = [] := copied
      exact ⟨item, [], rfl, last, rfl⟩
  | cons first layouts hypothesis =>
      rcases copied with ⟨head, others, rfl, one, copies⟩
      exact ⟨head, others ++ [item], rfl, one, hypothesis copies⟩

end Layout

/-! ## Copying to the end -/

namespace Memory

variable {base before memory : Memory} {node : Addr} {valuestring string : Option Addr} {source : Record}

/-- What `duplicate_rec` leaves that may go down so many levels.  It returns a copy
only if no path of child links is longer than that, and NULL only if there is one or a
request was refused. -/
def Duplicated (base memory : Memory) (levels : Nat) (item : Addr) : Pointer × Memory -> Prop
  | (none, after) => memory.Grows after [] ∧ (memory.hooks.AlwaysSucceed -> base.Path (levels + 1) item)
  | (some node, after) => ¬ base.Path (levels + 1) item ∧
      ∃ layout : Layout, layout.node = node ∧ memory.Made after layout ∧ layout.CopyOf base after item

/-- What the loop over the children leaves: copies of all the items, if none of the
rest goes down too far. -/
def ChildrenDuplicated (base before : Memory) (node : Addr) (valuestring string : Option Addr) (source : Record)
    (levels : Nat) (items rest : List Addr) : Option Pointer × Memory -> Prop
  | (none, after) => before.Grows after [] ∧
      (before.hooks.AlwaysSucceed -> ∃ item ∈ rest, base.Path levels item)
  | (some last, after) => (∀ item ∈ rest, ¬ base.Path levels item) ∧
      ∃ copy children, last = (children.map Layout.node).getLast? ∧
        Growing before after node valuestring string children copy ∧
        FieldsCopied base after source copy valuestring string ∧ AllCopyOf base after children items

/-- The loop on one more child, as an equation.  It keeps the proofs from unfolding
the mutual recursion. -/
theorem duplicateChildren_succ (fuel : Nat) (memory : Memory) (newitem next : Pointer) (item : Addr) {depth : Nat}
    (shallow : depth < Heap.circularLimit) :
    duplicateChildren (fuel + 1) memory newitem (some item) next depth = (do
      let (newchild, memory) ← duplicateRec fuel memory (some item) (depth + 1) true
      if newchild.isNone then do
        let memory ← memory.cjsonDelete (fuel + 1) newitem
        .ok (none, memory)
      else do
        let memory ← memory.attachChild newitem next newchild
        let record ← memory.read (some item)
        duplicateChildren fuel memory newitem record.next newchild depth) := by
  rw [duplicateChildren, if_neg (by simp), if_neg (Nat.not_le.mpr shallow)]

theorem duplicateChildren_deep (fuel : Nat) (memory : Memory) (newitem next : Pointer) (item : Addr) {depth : Nat}
    (deep : Heap.circularLimit ≤ depth) :
    duplicateChildren (fuel + 1) memory newitem (some item) next depth = (do
      let memory ← memory.cjsonDelete (fuel + 1) newitem
      .ok (none, memory)) := by
  rw [duplicateChildren, if_neg (by simp), if_pos deep]

theorem duplicateChildren_settles {depth levels : Nat} {blocks : List Addr}
    (within : depth + levels = Heap.circularLimit) (start : base.Grows before blocks)
    (one : ∀ {below : Nat} {memory : Memory} {blocks : List Addr} {item : Addr}, levels = below + 1 ->
      base.Grows memory blocks -> base.Readable item ->
        Settles (fun fuel => duplicateRec fuel memory (some item) (depth + 1) true)
          (Duplicated base memory below item))
    (rest : List Addr) :
    ∀ {memory : Memory} {children : List Layout} {items : List Addr} {pointer : Pointer} {copy : Record},
      Growing before memory node valuestring string children copy ->
      FieldsCopied base memory source copy valuestring string -> AllCopyOf base memory children items ->
      base.Siblings pointer rest -> (∀ item ∈ rest, base.Readable item) ->
        Settles (fun fuel => duplicateChildren fuel memory (some node) pointer
          (children.map Layout.node).getLast? depth)
          (ChildrenDuplicated base before node valuestring string source levels (items ++ rest) rest) := by
  induction rest with
  | nil =>
      intro memory children items pointer copy growing fields copies siblings _
      obtain rfl : pointer = none := siblings
      apply Settles.succ
      rw [List.append_nil]
      refine Settles.congr (Settles.ok ?_) (fun fuel => rfl)
      exact ⟨List.forall_mem_nil _, copy, children, rfl, growing, fields, copies⟩
  | cons item rest hypothesis =>
      intro memory children items pointer copy growing fields copies siblings readable
      rcases siblings with ⟨rfl, record, found, siblings⟩
      apply Settles.succ
      cases levels with
      | zero =>
          have deep : Heap.circularLimit ≤ depth := Nat.le_of_eq within.symm
          apply Settles.congr _ (fun fuel => duplicateChildren_deep fuel memory _ _ item deep)
          apply ((growing.discard True).pred.settles trivial).bind
          intro after grows
          exact Settles.ok ⟨grows, fun _ => ⟨item, List.mem_cons_self, trivial⟩⟩
      | succ below =>
          have shallow : depth < Heap.circularLimit := by omega
          have grows := start.trans growing.grows
          apply Settles.congr _ (fun fuel => duplicateChildren_succ fuel memory _ _ item shallow)
          apply (one rfl grows (readable item List.mem_cons_self)).bind
          rintro ⟨newchild, middle⟩ outcome
          cases newchild with
          | none =>
              apply (((growing.unchanged outcome.1).discard True).pred.settles trivial).bind
              intro after cleared
              refine Settles.ok ⟨cleared, ?_⟩
              intro succeeds
              exact ⟨item, List.mem_cons_self, outcome.2 (growing.grows.succeeds succeeds)⟩
          | some newchild =>
              rcases outcome with ⟨within, layout, rfl, made, copied⟩
              apply (Settles.of_returns (growing.attach made)).bind
              rintro after ⟨⟨child, grown⟩, attached⟩
              have reads : after.read (some item) = .ok record := read_eq ((start.trans grown.grows).found found)
              rw [reads]
              show Settles (fun fuel => duplicateChildren fuel after (some node) record.next
                (some layout.node) depth) _
              have more := hypothesis grown (fields.kept attached.strings rfl rfl rfl rfl)
                ((copies.kept attached.done).concat (copied.kept attached.last)) siblings
                (fun later member => readable later (List.mem_cons_of_mem _ member))
              rw [List.map_append, List.map_singleton, List.getLast?_concat, List.append_assoc] at more
              apply more.mono
              rintro ⟨last, final⟩ outcome
              cases last with
              | none =>
                  refine ⟨outcome.1, ?_⟩
                  intro succeeds
                  rcases outcome.2 succeeds with ⟨later, member, path⟩
                  exact ⟨later, List.mem_cons_of_mem _ member, path⟩
              | some last => exact ⟨List.forall_mem_cons.mpr ⟨within, outcome.1⟩, outcome.2⟩

/-- `duplicate_rec` on a node, all the way down, as an equation for the same purpose. -/
theorem duplicateRec_succ (fuel : Nat) (memory : Memory) (item : Addr) (depth : Nat) :
    duplicateRec (fuel + 1) memory (some item) depth true = (do
      let (newitem, memory) ← memory.duplicateNode (fuel + 1) (some item)
      if newitem.isNone then .ok (none, memory)
      else do
        let record ← memory.read (some item)
        match ← duplicateChildren fuel memory newitem record.child none depth with
        | (none, memory) => .ok (none, memory)
        | (some last, memory) => do
            let memory ← memory.closeChildren newitem last
            .ok (newitem, memory)) := by
  rw [duplicateRec, if_neg (by simp)]
  rfl

/-- One level, given the levels below.  The levels that are left and the depth make up
the limit, so on the last level a child is refused and not followed. -/
theorem duplicateRec_level {depth levels : Nat} {blocks : List Addr} {item : Addr}
    (within : depth + levels = Heap.circularLimit)
    (one : ∀ {below : Nat} {memory : Memory} {blocks : List Addr} {item : Addr}, levels = below + 1 ->
      base.Grows memory blocks -> base.Readable item ->
        Settles (fun fuel => duplicateRec fuel memory (some item) (depth + 1) true)
          (Duplicated base memory below item))
    (start : base.Grows memory blocks) (readable : base.Readable item) :
    Settles (fun fuel => duplicateRec fuel memory (some item) depth true) (Duplicated base memory levels item) := by
  rcases readable item Relation.ReflTransGen.refl with ⟨source, nodes, found, legible, siblings⟩
  have children : ∀ element ∈ nodes, base.Child item element :=
    fun element member => (child_iff found siblings).mpr member
  have safe : True -> ∃ source, memory.read (some item) = .ok source ∧ Record.Legible memory source :=
    fun _ => ⟨source, read_eq (start.found found), start.legible legible.1, fun const =>
      start.legible (legible.2 const)⟩
  apply Settles.succ
  apply Settles.congr _ (fun fuel => duplicateRec_succ fuel memory item depth)
  apply ((duplicateNode_completes safe).pred.settles trivial).bind
  rintro ⟨newitem, middle⟩ outcome
  cases newitem with
  | none => exact Settles.ok ⟨outcome.1, fun succeeds => absurd succeeds outcome.2⟩
  | some node =>
      rcases outcome with ⟨valuestring, string, copy, growing, fields⟩
      have reads : middle.read (some item) = .ok source := read_eq ((start.trans growing.grows).found found)
      have copied := (fields source (read_eq (start.found found))).before start
      have loop := duplicateChildren_settles within start one nodes growing copied rfl siblings
        (fun element member => readable.child (children element member))
      show Settles (fun fuel => middle.read (some item) >>= fun record => _) _
      rw [reads]
      apply loop.bind
      rintro ⟨last, after⟩ outcome
      cases last with
      | none =>
          refine Settles.ok ⟨outcome.1, ?_⟩
          intro succeeds
          rcases outcome.2 succeeds with ⟨element, member, path⟩
          exact ⟨element, children element member, path⟩
      | some last =>
          rcases outcome with ⟨shallow, copy, layouts, rfl, grown, fields, copies⟩
          apply (Settles.of_returns grown.close).bind
          rintro final ⟨made, cell, kept, strings⟩
          refine Settles.ok ⟨?_, _, rfl, made, ?_⟩
          · rintro ⟨element, below, path⟩
            exact shallow element ((child_iff found siblings).mp below) path
          · exact ⟨source, copy, nodes, found, cell, fields.kept strings rfl rfl rfl rfl, siblings,
              copies.kept kept⟩

/-- From a source that can be read, every budget from some point on gives the same
copy, or finds that the source goes down too far. -/
theorem duplicateRec_settles (levels : Nat) :
    ∀ {depth : Nat} {memory : Memory} {blocks : List Addr} {item : Addr}, depth + levels = Heap.circularLimit ->
      base.Grows memory blocks -> base.Readable item ->
        Settles (fun fuel => duplicateRec fuel memory (some item) depth true)
          (Duplicated base memory levels item) := by
  induction levels with
  | zero =>
      intro depth memory blocks item within
      apply duplicateRec_level within
      intro below _ _ _ impossible
      cases impossible
  | succ levels hypothesis =>
      intro depth memory blocks item within
      apply duplicateRec_level within
      intro below _ _ _ same
      cases same
      exact hypothesis (by omega)

/-- `cjson_duplicate` of a source that can be read to its end returns. -/
theorem cjsonDuplicate_settles {item : Addr} (readable : memory.Readable item) :
    Settles (fun fuel => cjsonDuplicate fuel memory (some item) true)
      (Duplicated memory memory Heap.circularLimit item) :=
  duplicateRec_settles Heap.circularLimit (Nat.zero_add _) (Grows.refl memory) readable

/-- If no path is too long and there is memory, `cjson_duplicate` makes a copy of all
that is below the item, in new blocks, well linked; what was there before is as it was. -/
theorem duplicate_copies {item : Addr} (readable : memory.Readable item)
    (shallow : ¬ memory.Path (Heap.circularLimit + 1) item) (succeeds : memory.hooks.AlwaysSucceed) :
    Settles (fun fuel => cjsonDuplicate fuel memory (some item) true) fun result =>
      ∃ layout : Layout, result.1 = some layout.node ∧ memory.Made result.2 layout ∧
        layout.CopyOf memory result.2 item ∧
        ∀ block, block < memory.unused -> result.2.cells block = memory.cells block := by
  apply (cjsonDuplicate_settles readable).mono
  rintro ⟨copy, after⟩ outcome
  cases copy with
  | none => exact absurd (outcome.2 succeeds) shallow
  | some copy =>
      rcases outcome with ⟨_, layout, rfl, made, copied⟩
      exact ⟨layout, rfl, made, copied, fun block before => made.grows.kept before⟩

/-- An object whose only member is a reference to a string, under a constant name. -/
def constName : Memory where
  cells
    | 0 => some (.node { type_ := { base := .object }, child := some 1 })
    | 1 => some (.node {
        prev := some 1
        type_ := { base := .string, isReference := true, stringIsConst := true }
        valuestring := some ⟨2, 0⟩
        string := some ⟨2, 0⟩ })
    | 2 => some (.text [97, 0])
    | _ => none
  unused := 3
  hooks := { answers := fun _ _ => true, hasReallocate := false }
  fresh := by
    intro address beyond
    match address with
    | 0 | 1 | 2 => exact absurd beyond (by decide)
    | _ + 3 => rfl

theorem constName_child {node element : Addr} (child : constName.Child node element) : node = 0 ∧ element = 1 := by
  have listed : constName.Siblings (some 1) [1] := ⟨rfl, _, rfl, rfl⟩
  rcases child with ⟨record, nodes, found, siblings, inside⟩
  match node with
  | 0 =>
      cases found
      rw [siblings.unique listed] at inside
      exact ⟨rfl, List.mem_singleton.mp inside⟩
  | 1 =>
      cases found
      rw [siblings.unique (show constName.Siblings none [] from rfl)] at inside
      cases inside
  | 2 => cases found
  | _ + 3 => cases found

theorem constName_readable : constName.Readable 0 := by
  intro node reached
  have cases : node = 0 ∨ node = 1 := by
    induction reached with
    | refl => exact Or.inl rfl
    | tail _ child _ => exact Or.inr (constName_child child).2
  rcases cases with rfl | rfl
  · exact ⟨_, [1], rfl, ⟨Or.inl rfl, fun _ => Or.inl rfl⟩, rfl, _, rfl, rfl⟩
  · exact ⟨_, [], rfl, ⟨Or.inr ⟨[97], rfl⟩, fun impossible => by cases impossible⟩, rfl⟩

theorem duplicate_copies_constName :
    Settles (fun fuel => cjsonDuplicate fuel constName (some 0) true) fun result =>
      ∃ layout : Layout, result.1 = some layout.node ∧ constName.Made result.2 layout ∧
        layout.CopyOf constName result.2 0 ∧
        ∀ block, block < constName.unused -> result.2.cells block = constName.cells block := by
  apply duplicate_copies constName_readable _ (fun _ _ => rfl)
  intro path
  rcases path.shorter (by decide : 2 ≤ _) with ⟨element, child, again, below, _⟩
  rw [(constName_child child).2] at below
  cases (constName_child below).1

/-- `cjson_duplicate` returns whatever cycles there are below the item; if there is
memory, it returns NULL exactly for a path of more than 10000 child links. -/
theorem duplicate_null_iff {item : Addr} (readable : memory.Readable item) :
    Settles (fun fuel => cjsonDuplicate fuel memory (some item) true) fun result =>
      memory.hooks.AlwaysSucceed ->
        (result.1 = none ↔ ∃ length, Heap.circularLimit < length ∧ memory.Path length item) := by
  apply (cjsonDuplicate_settles readable).mono
  rintro ⟨copy, after⟩ outcome succeeds
  cases copy with
  | none => exact iff_of_true rfl ⟨_, Nat.lt_succ_self _, outcome.2 succeeds⟩
  | some copy =>
      apply iff_of_false (by simp)
      rintro ⟨length, deep, path⟩
      exact outcome.1 (path.shorter deep)

/-- An array that is its own element. -/
def cycle : Memory where
  cells
    | 0 => some (.node { prev := some 0, type_ := { base := .array }, child := some 0 })
    | _ => none
  unused := 1
  hooks := { answers := fun _ _ => true, hasReallocate := false }
  fresh := by
    intro address beyond
    match address with
    | 0 => exact absurd beyond (by decide)
    | _ + 1 => rfl

theorem cycle_siblings : cycle.Siblings (some 0) [0] := ⟨rfl, _, rfl, rfl⟩

theorem cycle_path (length : Nat) : cycle.Path length 0 := by
  induction length with
  | zero => trivial
  | succ length hypothesis => exact ⟨0, ⟨_, [0], rfl, cycle_siblings, List.mem_cons_self⟩, hypothesis⟩

theorem cycle_readable : cycle.Readable 0 := by
  intro node reached
  obtain rfl : node = 0 := by
    induction reached with
    | refl => rfl
    | tail _ child same =>
        subst same
        exact List.mem_singleton.mp ((child_iff rfl cycle_siblings).mp child)
  exact ⟨_, [0], rfl, ⟨Or.inl rfl, fun _ => Or.inl rfl⟩, cycle_siblings⟩

theorem duplicate_null_iff_cycle :
    Settles (fun fuel => cjsonDuplicate fuel cycle (some 0) true) (fun result => result.1 = none) := by
  apply (duplicate_null_iff cycle_readable).mono
  intro result outcome
  exact (outcome (fun _ _ => rfl)).mpr ⟨_, Nat.lt_succ_self _, cycle_path _⟩

end Memory

end CJson
