import CJson.MemoryCopy

/-!
# Constructions that fail

Every function that makes new nodes or strings can run out of memory half way.
One that then reports failure has to give back what it has taken, and to leave the
tree that was there alone.  Each of them does, except for
`cjson_add_item_reference_to_object`.
-/

namespace CJson

open Layout Memory

namespace Memory

variable {memory : Memory}

/-! ## Creating -/

/-- A record without links and strings, as `cjson_new_item` returns it before a
constructor sets anything. -/
structure Bare (record : Record) : Prop where
  next : record.next = none
  prev : record.prev = none
  child : record.child = none
  plain : record.type_.isReference = false
  valuestring : record.valuestring = none
  string : record.string = none

/-- A new node, or nothing. -/
def NodeMade (memory : Memory) (record : Record) : Pointer × Memory -> Prop
  | (none, after) => memory.Grows after []
  | (some node, after) => Growing memory after node none none [] record

theorem createNode_returns (memory : Memory) {record : Record} (bare : Bare record) :
    Returns (memory.createNode record) (memory.NodeMade record) := by
  unfold createNode
  rcases newItem_grows memory with ⟨middle, made, grows, _⟩ | ⟨node, middle, made, grows, cell⟩
  · simp only [made]
    exact Returns.ok grows
  simp only [made]
  have start : Growing memory middle node none none [] {} :=
    ⟨⟨grows, ⟨cell, rfl, rfl, rfl, List.forall_mem_nil _⟩, trivial, trivial⟩, rfl, rfl, rfl, trivial⟩
  have unnamed : (if record.type_.stringIsConst then (none : Option Addr) = none
      else record.string = (none : Option Addr).map (CharPointer.mk · 0)) := by
    rw [bare.string]
    split <;> rfl
  apply (start.change (Grows.refl middle) (fun _ => record) none none ⟨bare.next, bare.prev, bare.child⟩ bare.plain
    bare.valuestring unnamed (List.Perm.refl _)).bind
  intro after _ grown
  exact Returns.ok grown.1

theorem NodeMade.built {record : Record} {result : Pointer × Memory} (made : memory.NodeMade record result) :
    memory.Built result := by
  rcases result with ⟨node, after⟩
  cases node with
  | none => exact made
  | some node => exact ⟨_, rfl, Growing.made made⟩

theorem createNode_built (memory : Memory) {record : Record} (bare : Bare record) :
    Ensures (memory.createNode record) memory.Built :=
  Yields.of_returns ((createNode_returns memory bare).mono (fun _ made => made.built))

theorem createNumber_built (memory : Memory) (num : Binary64) :
    Ensures (memory.cjsonCreateNumber num) memory.Built :=
  createNode_built memory ⟨rfl, rfl, rfl, rfl, rfl, rfl⟩

theorem createText_built (memory : Memory) (fuel : Nat) (base : BaseType) (string : Option CharPointer) :
    Ensures (memory.createText fuel base string) memory.Built := by
  unfold createText
  apply Ensures.bind (Yields.of_returns (createNode_returns memory ⟨rfl, rfl, rfl, rfl, rfl, rfl⟩))
  rintro ⟨item, middle⟩ made
  cases item with
  | none => exact Ensures.ok made
  | some node =>
      have growing : Growing memory middle node none none [] { type_ := { base := base } } := made
      apply Ensures.ite
      · intro impossible
        cases impossible
      intro _
      apply (strdup_ensures middle string).bind
      rintro ⟨copy, third⟩ copied
      cases copy with
      | none =>
          apply Ensures.bind (Yields.of_returns (growing.change copied.1
            (fun record => { record with valuestring := none }) none none ⟨rfl, rfl, rfl⟩ rfl rfl rfl
            (List.Perm.refl _)))
          rintro last ⟨grown, _⟩
          exact ((grown.discard True).ensures fuel).bind (fun _ grows => Ensures.ok grows)
      | some copy =>
          rcases copy with ⟨block, offset⟩
          rcases copied with ⟨grows, rfl, _⟩
          apply Ensures.bind (Yields.of_returns (growing.change grows
            (fun record => { record with valuestring := some ⟨block, 0⟩ }) (some block) none
            ⟨rfl, rfl, rfl⟩ rfl rfl rfl
            (List.Perm.refl _)))
          rintro last ⟨grown, _⟩
          exact Ensures.ok ⟨_, rfl, grown.made⟩

theorem createElements_built {α : Type} {element : α -> Memory -> Except MemoryFault (Pointer × Memory)}
    (each : ∀ number memory, Ensures (element number memory) memory.Built) (fuel : Nat) (numbers : List α) :
    ∀ {before memory : Memory} {a : Addr} {children : List Layout} {record : Record},
      Growing before memory a none none children record ->
        Ensures (createElements fuel element (some a) numbers (children.map Layout.node).getLast? memory)
          (ChildrenBuilt before a none none record) := by
  induction numbers with
  | nil =>
      intro before memory a children record growing
      exact Ensures.ok ⟨record.child, children, rfl, growing⟩
  | cons number numbers hypothesis =>
      intro before memory a children record growing
      unfold createElements
      apply (each number memory).bind
      rintro ⟨n, middle⟩ built
      cases n with
      | none => exact (((growing.unchanged built).discard True).ensures fuel).bind (fun _ grows => Ensures.ok grows)
      | some n =>
          rcases built with ⟨layout, rfl, made⟩
          apply Ensures.bind (Yields.of_returns (growing.attach made))
          rintro after ⟨⟨first, grown⟩, _⟩
          have built := hypothesis grown
          rw [List.map_append, List.map_singleton, List.getLast?_concat] at built
          exact built

theorem createNumberArray_built {α : Type} {element : α -> Memory -> Except MemoryFault (Pointer × Memory)}
    (each : ∀ number memory, Ensures (element number memory) memory.Built) (memory : Memory) (fuel : Nat)
    (numbers : Option (List α)) (count : Int) :
    Ensures (memory.createNumberArray fuel element numbers count) memory.Built := by
  unfold createNumberArray
  cases numbers with
  | none => exact Ensures.ok (Grows.refl memory)
  | some numbers =>
      apply Ensures.ite
      · intro _
        exact Ensures.ok (Grows.refl memory)
      intro _
      apply Ensures.ite
      · intro _
        exact Ensures.error
      intro _
      apply Ensures.bind (Yields.of_returns (createNode_returns memory ⟨rfl, rfl, rfl, rfl, rfl, rfl⟩))
      rintro ⟨a, middle⟩ made
      cases a with
      | none => exact Ensures.ok made
      | some a =>
          have growing : Growing memory middle a none none [] { type_ := { base := .array } } := made
          apply Ensures.ite
          · intro impossible
            cases impossible
          intro _
          apply (createElements_built each fuel (numbers.take count.toNat) growing).bind
          rintro ⟨last, after⟩ built
          cases last with
          | none => exact Ensures.ok built
          | some last =>
              rcases built with ⟨child, children, rfl, grown⟩
              apply Ensures.bind (Yields.of_returns grown.close)
              rintro final ⟨made, _⟩
              exact Ensures.ok ⟨_, rfl, made⟩

/-! ## Adding what has been created -/

/-- A call that reports failure leaves no new block.  After a success there is nothing
to say here: what the call has made belongs to the caller. -/
def Clean {α : Type} (memory : Memory) (result : Option α × Memory) : Prop :=
  result.1 = none -> memory.Grows result.2 []

theorem Built.clean {result : Pointer × Memory} (built : memory.Built result) : memory.Clean result := by
  rcases result with ⟨node, after⟩
  rintro rfl
  exact built

/-- `add_item_to_array` can only refuse its arguments. -/
theorem addItemToArray_ensures (memory : Memory) (array item : Pointer) :
    Ensures (memory.addItemToArray array item) fun result =>
      result.1 = false -> (item.isNone ∨ array.isNone ∨ array = item) ∧ result = (false, memory) := by
  have added : ∀ after : Memory, ((true, after) : Bool × Memory).1 = false ->
      (item.isNone ∨ array.isNone ∨ array = item) ∧ (true, after) = (false, memory) := by
    intro after impossible
    cases impossible
  unfold addItemToArray
  apply Ensures.ite
  · intro refused
    exact Ensures.ok (fun _ => ⟨refused, rfl⟩)
  intro _
  apply Ensures.step
  intro container
  apply Ensures.ite
  · intro _
    exact Ensures.step (fun _ => Ensures.step (fun after => Ensures.ok (added after)))
  intro _
  apply Ensures.step
  intro first
  apply Ensures.ite
  · intro _
    exact Ensures.step (fun _ => Ensures.step (fun _ => Ensures.step (fun after => Ensures.ok (added after))))
  · intro _
    exact Ensures.ok (added memory)

/-- There is no memory for a copy of the string.  The copy takes one request, of the
length of the string and its terminator. -/
def NameRefused (memory : Memory) (string : Option CharPointer) : Prop :=
  ∀ content, memory.cString string = .ok content -> (memory.request (content.length + 1)).1 = false

/-- `add_item_to_object` fails before it has changed anything: it refuses its
arguments, or cannot copy the name. -/
theorem addItemToObject_ensures (memory : Memory) (object : Pointer) (string : Option CharPointer) (item : Pointer) :
    Ensures (memory.addItemToObject object string item false) fun result =>
      if result.1 then item.isSome = true
      else memory.Grows result.2 [] ∧
        ((object.isNone ∨ string.isNone ∨ item.isNone ∨ object = item) ∨ memory.NameRefused string) := by
  unfold addItemToObject
  apply Ensures.ite
  · intro refused
    exact Ensures.ok ⟨Grows.refl memory, Or.inl refused⟩
  intro given
  rw [if_neg Bool.false_ne_true]
  apply Ensures.follow
  rintro ⟨newKey, middle⟩ ends
  have copied := (strdup_ensures memory string).elim ends
  cases newKey with
  | none =>
      refine Ensures.ok ⟨copied.1, Or.inr ?_⟩
      intro content reads
      rw [strdup_eq reads] at ends
      cases granted : (memory.request (content.length + 1)).1 with
      | false => rfl
      | true =>
          rw [granted] at ends
          cases ends
  | some newKey =>
      apply Ensures.ite
      · intro impossible
        cases impossible
      intro _
      apply Ensures.step
      intro record
      apply Ensures.step
      intro third
      apply Ensures.step
      intro fourth
      apply (addItemToArray_ensures fourth object item).mono
      intro result added
      cases reported : result.1 with
      | true =>
          rw [if_pos rfl]
          cases item with
          | none => exact absurd (Or.inr (Or.inr (Or.inl rfl))) given
          | some node => rfl
      | false =>
          exfalso
          apply given
          have refused := (added reported).1
          tauto

/-- What cannot be added is deleted again. -/
theorem addCreated_clean {created : Except MemoryFault (Pointer × Memory)} (built : Ensures created memory.Built)
    (fuel : Nat) (object : Pointer) (name : Option CharPointer) :
    Ensures (addCreated fuel created object name) memory.Clean := by
  unfold addCreated
  apply built.bind
  rintro ⟨item, middle⟩ built
  apply (addItemToObject_ensures middle object name item).bind
  rintro ⟨added, after⟩ outcome
  apply Ensures.ite
  · intro succeeded
    rw [if_pos succeeded] at outcome
    apply Ensures.ok
    rintro rfl
    cases outcome
  intro failed
  rw [if_neg failed] at outcome
  cases item with
  | none =>
      cases fuel with
      | zero => exact Ensures.error
      | succ fuel => exact Ensures.ok (fun _ => Grows.trans built outcome.1)
  | some node =>
      rcases built with ⟨layout, rfl, made⟩
      have same : ∀ block, after.cells block = middle.cells block := congrFun outcome.1.cells_eq
      have grows := made.grows.trans outcome.1
      rw [List.append_nil] at grows
      apply ((grows.discard (made.holds.congr (fun block _ => same block))
        ((links_congr (same layout.node)).1.trans made.next) True).ensures fuel).bind
      intro last cleared
      exact Ensures.ok (fun _ => cleared)

/-! ## Setting a string -/

theorem setValuestring_clean (memory : Memory) (object : Pointer) (valuestring : Option CharPointer) :
    Ensures (memory.cjsonSetValuestring object valuestring) memory.Clean := by
  have nothing : memory.Clean ((none : Option CharPointer), memory) := fun _ => Grows.refl memory
  unfold cjsonSetValuestring
  apply Ensures.ite
  · intro _
    exact Ensures.ok nothing
  intro _
  apply Ensures.step
  intro record
  apply Ensures.ite
  · intro _
    exact Ensures.ok nothing
  intro _
  cases stored : record.valuestring with
  | none => exact Ensures.ok nothing
  | some old =>
      cases valuestring with
      | none => exact Ensures.ok nothing
      | some given =>
          dsimp only
          apply Ensures.step
          intro v1
          apply Ensures.step
          intro v2
          apply Ensures.ite
          · intro _
            apply Ensures.ite
            · intro _
              exact Ensures.ok nothing
            intro _
            exact Ensures.step (fun _ => Ensures.ok (fun impossible => by cases impossible))
          intro _
          apply (strdup_ensures memory (some given)).bind
          rintro ⟨copy, middle⟩ copied
          cases copy with
          | none => exact Ensures.ok (fun _ => copied.1)
          | some copy =>
              apply Ensures.ite
              · intro impossible
                cases impossible
              intro _
              exact Ensures.step (fun _ => Ensures.step (fun _ => Ensures.ok (fun impossible => by cases impossible)))

/-! ## References -/

/-- The request for the node of a reference is refused. -/
theorem createReference_refused (memory : Memory) (item : Pointer) (refused : (memory.request nodeSize).1 = false) :
    memory.createReference item = .ok (none, if item.isNone then memory else (memory.request nodeSize).2) := by
  unfold createReference
  cases item with
  | none => rfl
  | some source =>
      have made : memory.newItem = (none, (memory.request nodeSize).2) := by
        show (if (memory.request nodeSize).1 then _ else _) = _
        rw [refused]
        rfl
      rw [if_neg (by simp), made]
      rfl

/-- `create_reference` makes one node, with the fields of the other. -/
theorem createReference_granted {memory : Memory} {source : Addr} {record : Record}
    (found : memory.cells source = some (.node record)) (granted : (memory.request nodeSize).1 = true) :
    ∃ reference middle, memory.createReference (some source) = .ok (some reference, middle) ∧
      memory.Grows middle [reference] ∧ middle.hooks = (memory.request nodeSize).2.hooks := by
  have made : memory.newItem = (some memory.unused, (memory.request nodeSize).2.allocate (.node {})) := by
    show (if (memory.request nodeSize).1 then _ else _) = _
    rw [granted]
    rfl
  have grows : memory.Grows ((memory.request nodeSize).2.allocate (.node {})) [memory.unused] :=
    (Grows.request memory nodeSize).trans (Grows.allocate _ _)
  have cell : ((memory.request nodeSize).2.allocate (.node {})).cells memory.unused = some (.node {}) :=
    allocate_cells _ _
  unfold createReference
  rw [if_neg (by simp), made]
  dsimp only
  rw [read_eq (grows.found found), Except.ok_bind, modify_eq cell]
  exact ⟨_, _, rfl, grows.store List.mem_cons_self cell _, rfl⟩

/-- `create_reference`: a node, or nothing.  What the item owns is not copied, so no
other block is asked for. -/
theorem createReference_ensures (memory : Memory) (item : Pointer) :
    Ensures (memory.createReference item) fun result =>
      match result with
      | (none, after) => memory.Grows after []
      | (some reference, after) => memory.Grows after [reference] := by
  unfold createReference
  apply Ensures.ite
  · intro _
    exact Ensures.ok (Grows.refl memory)
  intro _
  rcases newItem_grows memory with ⟨middle, made, grows, _⟩ | ⟨node, middle, made, grows, cell⟩
  · simp only [made]
    exact Ensures.ok grows
  simp only [made]
  apply Ensures.step
  intro record
  rw [modify_eq cell]
  exact Ensures.ok (grows.store List.mem_cons_self cell _)

/-- A reference that has been made can be added to an array that was there before, so
a failure leaves no new block behind.  This is the difference to the function for
objects. -/
theorem referenceToArray_clean (memory : Memory) {array : Pointer} (item : Pointer)
    (proper : ∀ node ∈ array, (memory.cells node).isSome = true) :
    Ensures (memory.cjsonAddItemReferenceToArray array item)
      (fun result => result.1 = false -> memory.Grows result.2 []) := by
  unfold cjsonAddItemReferenceToArray
  apply Ensures.ite
  · intro _
    exact Ensures.ok (fun _ => Grows.refl memory)
  intro given
  apply (createReference_ensures memory item).bind
  rintro ⟨reference, middle⟩ made
  apply (addItemToArray_ensures middle array reference).mono
  intro result added failed
  rcases added failed with ⟨refused, rfl⟩
  cases reference with
  | none => exact made
  | some reference =>
      rcases refused with impossible | missing | rfl
      · cases impossible
      · exact absurd missing given
      · exact absurd List.mem_cons_self (made.outside (proper reference rfl))

/-- The node of the reference is there, but there is no memory for its name. -/
def LosesReference (memory : Memory) (object : Pointer) (string : Option CharPointer) (item : Pointer) : Prop :=
  object.isSome ∧ item.isSome ∧ string.isSome ∧ (memory.request nodeSize).1 = true ∧
    (memory.request nodeSize).2.NameRefused string

/-- What is handed to a function that adds a reference: NULL or a node, each time, and
a C string. -/
structure ReferenceArguments (memory : Memory) (object : Pointer) (string : Option CharPointer) (item : Pointer) :
    Prop where
  object : ∀ node ∈ object, (memory.cells node).isSome = true
  item : ∀ node ∈ item, ∃ record, memory.cells node = some (.node record)
  string : memory.Legible string

theorem referenceToObject_clean_iff {memory : Memory} {object item : Pointer} {string : Option CharPointer}
    (proper : memory.ReferenceArguments object string item) :
    (∀ after, memory.cjsonAddItemReferenceToObject object string item = .ok (false, after) ->
      after.cells = memory.cells) ↔ ¬ memory.LosesReference object string item := by
  constructor
  · rintro clean ⟨someObject, someItem, someString, granted, refused⟩
    rcases Option.isSome_iff_exists.mp someItem with ⟨source, rfl⟩
    rcases Option.isSome_iff_exists.mp someString with ⟨name, rfl⟩
    rcases proper.item source rfl with ⟨record, found⟩
    rcases proper.string with impossible | ⟨content, reads⟩
    · cases impossible
    rcases createReference_granted found granted with ⟨reference, middle, made, grows, hooks⟩
    have sameRequest : (middle.request (content.length + 1)).1 = false := by
      show (middle.hooks.request (content.length + 1)).1 = false
      rw [hooks]
      exact refused content reads
    have apart : object ≠ some reference := by
      rintro rfl
      exact grows.outside (proper.object reference rfl) List.mem_cons_self
    have fails : memory.cjsonAddItemReferenceToObject object (some name) (some source) =
        .ok (false, (middle.request (content.length + 1)).2) := by
      unfold cjsonAddItemReferenceToObject
      rw [if_neg (by simp [Option.isSome_iff_ne_none.mp someObject]), made, Except.ok_bind]
      show middle.addItemToObject object (some name) (some reference) false = _
      unfold addItemToObject
      rw [if_neg (by simp [Option.isSome_iff_ne_none.mp someObject, apart]), if_neg Bool.false_ne_true,
        strdup_eq (grows.cString reads), sameRequest]
      rfl
    have same := congrFun (clean _ fails) reference
    have live := grows.live reference List.mem_cons_self
    rw [show middle.cells reference = memory.cells reference from same,
      memory.fresh reference (grows.fresh reference List.mem_cons_self)] at live
    cases live
  · intro safe after ends
    unfold cjsonAddItemReferenceToObject at ends
    by_cases missing : object.isNone ∨ string.isNone
    · rw [if_pos missing] at ends
      cases ends
      rfl
    rw [if_neg missing] at ends
    rcases Except.bind_eq_ok.mp ends with ⟨⟨reference, middle⟩, made, added⟩
    have outcome := (addItemToObject_ensures middle object string reference).elim added
    rw [if_neg Bool.false_ne_true] at outcome
    cases item with
    | none =>
        cases made
        exact outcome.1.cells_eq
    | some source =>
        cases granted : (memory.request nodeSize).1 with
        | false =>
            rw [createReference_refused memory (some source) granted] at made
            cases made
            exact outcome.1.cells_eq
        | true =>
            rcases proper.item source rfl with ⟨record, found⟩
            rcases createReference_granted found granted with ⟨_, _, again, grows, hooks⟩
            rw [again] at made
            cases made
            exfalso
            apply safe
            rcases outcome.2 with (noObject | noString | noReference | same) | refused
            · exact absurd (Or.inl noObject) missing
            · exact absurd (Or.inr noString) missing
            · cases noReference
            · subst same
              exact absurd List.mem_cons_self (grows.outside (proper.object _ rfl))
            · rw [not_or] at missing
              refine ⟨?_, rfl, ?_, granted, ?_⟩
              · exact Option.isSome_iff_ne_none.mpr (by simpa using missing.1)
              · exact Option.isSome_iff_ne_none.mpr (by simpa using missing.2)
              · intro content reads
                have sameRequest : (middle.hooks.request (content.length + 1)).1 = false :=
                  refused content (grows.cString reads)
                rw [hooks] at sameRequest
                exact sameRequest

end Memory

/-! ## Every construction -/

/-- A call of a function that makes nodes or strings, with its arguments.  All of them
report failure by NULL or by 0, and the question is the same for each: what is left in
memory then. -/
inductive Construction where
  | duplicate (item : Pointer) (recurse : Bool)
  | createString (string : Option CharPointer)
  | createRaw (raw : Option CharPointer)
  | createIntArray (numbers : Option (List Int)) (count : Int)
  | createDoubleArray (numbers : Option (List Binary64)) (count : Int)
  | createStringArray (strings : Option (List (Option CharPointer))) (count : Int)
  | addNullToObject (object : Pointer) (name : Option CharPointer)
  | addTrueToObject (object : Pointer) (name : Option CharPointer)
  | addFalseToObject (object : Pointer) (name : Option CharPointer)
  | addBoolToObject (object : Pointer) (name : Option CharPointer) (boolean : Bool)
  | addNumberToObject (object : Pointer) (name : Option CharPointer) (number : Binary64)
  | addStringToObject (object : Pointer) (name : Option CharPointer) (string : Option CharPointer)
  | addRawToObject (object : Pointer) (name : Option CharPointer) (raw : Option CharPointer)
  | addObjectToObject (object : Pointer) (name : Option CharPointer)
  | addArrayToObject (object : Pointer) (name : Option CharPointer)
  | addItemReferenceToArray (array item : Pointer)
  | addItemReferenceToObject (object : Pointer) (string : Option CharPointer) (item : Pointer)
  | setValuestring (object : Pointer) (valuestring : Option CharPointer)

namespace Construction

/-- A function that returns NULL reports failure. -/
def reported {α : Type} (result : Except MemoryFault (Option α × Memory)) : Except MemoryFault (Bool × Memory) := do
  let (pointer, memory) ← result
  .ok (pointer.isSome, memory)

/-- Whether the call reports success, and the memory it leaves.  Most of the calls
report success by a pointer that is not NULL, and the two that add a reference by
their flag. -/
def run (fuel : Nat) (memory : Memory) : Construction -> Except MemoryFault (Bool × Memory)
  | duplicate item recurse => reported (cjsonDuplicate fuel memory item recurse)
  | createString string => reported (memory.cjsonCreateString fuel string)
  | createRaw raw => reported (memory.cjsonCreateRaw fuel raw)
  | createIntArray numbers count => reported (memory.cjsonCreateIntArray fuel numbers count)
  | createDoubleArray numbers count => reported (memory.cjsonCreateDoubleArray fuel numbers count)
  | createStringArray strings count => reported (memory.cjsonCreateStringArray fuel strings count)
  | addNullToObject object name => reported (memory.cjsonAddNullToObject fuel object name)
  | addTrueToObject object name => reported (memory.cjsonAddTrueToObject fuel object name)
  | addFalseToObject object name => reported (memory.cjsonAddFalseToObject fuel object name)
  | addBoolToObject object name boolean => reported (memory.cjsonAddBoolToObject fuel object name boolean)
  | addNumberToObject object name number => reported (memory.cjsonAddNumberToObject fuel object name number)
  | addStringToObject object name string => reported (memory.cjsonAddStringToObject fuel object name string)
  | addRawToObject object name raw => reported (memory.cjsonAddRawToObject fuel object name raw)
  | addObjectToObject object name => reported (memory.cjsonAddObjectToObject fuel object name)
  | addArrayToObject object name => reported (memory.cjsonAddArrayToObject fuel object name)
  | addItemReferenceToArray array item => memory.cjsonAddItemReferenceToArray array item
  | addItemReferenceToObject object string item => memory.cjsonAddItemReferenceToObject object string item
  | setValuestring object valuestring => reported (memory.cjsonSetValuestring object valuestring)

/-- The containers that references are added to, and the nodes they refer to, are there. -/
def Proper (memory : Memory) : Construction -> Prop
  | addItemReferenceToArray array _ => ∀ node ∈ array, (memory.cells node).isSome = true
  | addItemReferenceToObject object string item => memory.ReferenceArguments object string item
  | _ => True

/-- A reference is made, and lost because its name cannot be copied. -/
def LosesReference (memory : Memory) : Construction -> Prop
  | addItemReferenceToObject object string item => memory.LosesReference object string item
  | _ => False

variable {memory : Memory}

theorem reported_clean {α : Type} {result : Except MemoryFault (Option α × Memory)}
    (clean : Ensures result memory.Clean) {after : Memory} (failed : reported result = .ok (false, after)) :
    after.cells = memory.cells := by
  rcases Except.bind_eq_ok.mp failed with ⟨⟨pointer, last⟩, ends, outcome⟩
  cases pointer with
  | none =>
      cases outcome
      exact (clean.elim ends rfl).cells_eq
  | some node => cases outcome

theorem reported_built {result : Except MemoryFault (Pointer × Memory)} (built : Ensures result memory.Built)
    {after : Memory} (failed : reported result = .ok (false, after)) : after.cells = memory.cells :=
  reported_clean (built.mono (fun _ built => built.clean)) failed

/-- A call that reports failure leaves the live blocks, and what they hold, as they
were, unless it loses a reference. -/
theorem leaks_nothing_iff (call : Construction) (proper : call.Proper memory) :
    (∀ fuel after, call.run fuel memory = .ok (false, after) -> after.cells = memory.cells) ↔
      ¬ call.LosesReference memory := by
  have created : ∀ (fuel : Nat) {created : Except MemoryFault (Pointer × Memory)} (object : Pointer)
      (name : Option CharPointer) (after : Memory), Ensures created memory.Built ->
        reported (addCreated fuel created object name) = .ok (false, after) -> after.cells = memory.cells := by
    intro fuel created object name after built failed
    exact reported_clean (addCreated_clean built fuel object name) failed
  have bare : ∀ base, Bare { type_ := { base := base } } := fun base => ⟨rfl, rfl, rfl, rfl, rfl, rfl⟩
  cases call with
  | duplicate item recurse =>
      exact iff_of_true (fun fuel after => reported_built ((duplicate_ensures fuel).1 memory item 0 recurse)) id
  | createString string =>
      exact iff_of_true (fun fuel after => reported_built (createText_built memory fuel _ string)) id
  | createRaw raw =>
      exact iff_of_true (fun fuel after => reported_built (createText_built memory fuel _ raw)) id
  | createIntArray numbers count =>
      exact iff_of_true (fun fuel after => reported_built
        (createNumberArray_built (fun _ _ => createNumber_built _ _) memory fuel numbers count)) id
  | createDoubleArray numbers count =>
      exact iff_of_true (fun fuel after => reported_built
        (createNumberArray_built (fun _ _ => createNumber_built _ _) memory fuel numbers count)) id
  | createStringArray strings count =>
      exact iff_of_true (fun fuel after => reported_built
        (createNumberArray_built (fun _ _ => createText_built _ fuel _ _) memory fuel strings count)) id
  | addNullToObject object name =>
      exact iff_of_true (fun fuel after => created fuel object name after (createNode_built memory (bare _))) id
  | addTrueToObject object name =>
      exact iff_of_true (fun fuel after => created fuel object name after (createNode_built memory (bare _))) id
  | addFalseToObject object name =>
      exact iff_of_true (fun fuel after => created fuel object name after (createNode_built memory (bare _))) id
  | addBoolToObject object name boolean =>
      exact iff_of_true (fun fuel after => created fuel object name after (createNode_built memory (bare _))) id
  | addNumberToObject object name number =>
      exact iff_of_true (fun fuel after => created fuel object name after (createNumber_built memory number)) id
  | addStringToObject object name string =>
      exact iff_of_true (fun fuel after => created fuel object name after (createText_built memory fuel _ string)) id
  | addRawToObject object name raw =>
      exact iff_of_true (fun fuel after => created fuel object name after (createText_built memory fuel _ raw)) id
  | addObjectToObject object name =>
      exact iff_of_true (fun fuel after => created fuel object name after (createNode_built memory (bare _))) id
  | addArrayToObject object name =>
      exact iff_of_true (fun fuel after => created fuel object name after (createNode_built memory (bare _))) id
  | addItemReferenceToArray array item =>
      exact iff_of_true (fun fuel after failed =>
        ((referenceToArray_clean memory item proper).elim failed rfl).cells_eq) id
  | addItemReferenceToObject object string item =>
      constructor
      · intro clean
        exact (referenceToObject_clean_iff proper).mp (clean 0)
      · intro safe fuel
        exact (referenceToObject_clean_iff proper).mpr safe
  | setValuestring object valuestring =>
      exact iff_of_true (fun fuel after => reported_clean (setValuestring_clean memory object valuestring)) id

/-- An object, a number, and a name for it; there is memory for one more node. -/
def shelf : Memory where
  cells
    | 0 => some (.node { type_ := { base := .object } })
    | 1 => some (.node { type_ := { base := .number } })
    | 2 => some (.text [97, 0])
    | _ => none
  unused := 3
  hooks := { answers := fun call _ => call == 0, hasReallocate := false }
  fresh := by
    intro address beyond
    match address with
    | 0 | 1 | 2 => exact absurd beyond (by decide)
    | _ + 3 => rfl

theorem leaks_nothing_iff_shelf :
    (addItemReferenceToArray (some 0) (some 1)).Proper shelf ∧
      ((∀ fuel after, (addItemReferenceToArray (some 0) (some 1)).run fuel shelf = .ok (false, after) ->
        after.cells = shelf.cells) ↔ ¬ (addItemReferenceToArray (some 0) (some 1)).LosesReference shelf) := by
  have proper : (addItemReferenceToArray (some 0) (some 1)).Proper shelf := by
    intro node inside
    cases inside
    rfl
  exact ⟨proper, leaks_nothing_iff _ proper⟩

/-- The node of the reference stays behind at address 3. -/
theorem reference_leaks : ∃ after,
    (addItemReferenceToObject (some 0) (some ⟨2, 0⟩) (some 1)).run 0 shelf = .ok (false, after) ∧
      shelf.cells 3 = none ∧ (after.cells 3).isSome = true := by
  refine ⟨_, rfl, rfl, ?_⟩
  decide

end Construction

end CJson
