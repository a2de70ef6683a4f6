import CJson.Runs

/-!
# What calls do to the fields of nodes

The functions that rewire pointers leave the fields of all nodes alone, and so
does deleting.  Two functions name what they put into an object, and assign the
name to that node before they link it.  Constructors fill nodes that are new.
-/

namespace CJson

open CString

namespace Heap

open OrderedForest

section Rewiring

variable {base heap : Heap}

/-- The three functions that write a link change nothing but links, and what is made
of them does not either. -/
theorem setNext_relinked (same : base.Relinked heap) (node target : Pointer) :
    Ensures (heap.setNext node target) fun after => base.Relinked after :=
  Ensures.step fun _ => Ensures.ok { same with }

theorem setPrev_relinked (same : base.Relinked heap) (node target : Pointer) :
    Ensures (heap.setPrev node target) fun after => base.Relinked after :=
  Ensures.step fun _ => Ensures.ok { same with }

theorem setChild_relinked (same : base.Relinked heap) (node target : Pointer) :
    Ensures (heap.setChild node target) fun after => base.Relinked after :=
  Ensures.step fun _ => Ensures.ok { same with }

theorem suffixObject_relinked (same : base.Relinked heap) (prev item : Pointer) :
    Ensures (heap.suffixObject prev item) fun after => base.Relinked after :=
  (setNext_relinked same prev item).bind fun _ linked => setPrev_relinked linked item prev

/-- Putting an item behind the others is done with links alone: the item keeps its
name and its value. -/
theorem addItemToArray_relinked (same : base.Relinked heap) (array item : Pointer) :
    Ensures (heap.addItemToArray array item) fun result => base.Relinked result.2 := by
  unfold Heap.addItemToArray
  refine Ensures.ite (fun _ => Ensures.ok same) fun _ => Ensures.step fun child => ?_
  refine Ensures.ite (fun _ => ?_) fun _ => ?_
  · refine (setChild_relinked same _ _).bind fun _ same => ?_
    refine (setPrev_relinked same _ _).bind fun _ same => ?_
    exact (setNext_relinked same _ _).bind fun _ same => Ensures.ok same
  · refine Ensures.step fun last => Ensures.ite (fun _ => ?_) fun _ => Ensures.ok same
    refine (suffixObject_relinked same _ _).bind fun _ same => ?_
    refine Ensures.step fun child => ?_
    exact (setPrev_relinked same _ _).bind fun _ same => Ensures.ok same

/-- So is putting it in front of another one, where the list of the array may get a new
head. -/
theorem insertItemInArray_relinked (same : base.Relinked heap) (array : Pointer) (which : Int)
    (newitem : Pointer) :
    Ensures (heap.cjsonInsertItemInArray array which newitem) fun result => base.Relinked result.2 := by
  unfold Heap.cjsonInsertItemInArray
  refine Ensures.ite (fun _ => Ensures.ok same) fun _ => Ensures.step fun afterInserted => ?_
  refine Ensures.ite (fun _ => addItemToArray_relinked same array newitem) fun _ => ?_
  refine Ensures.step fun child => Ensures.step fun prev => ?_
  refine Ensures.ite (fun _ => Ensures.ok same) fun _ => ?_
  refine (setNext_relinked same _ _).bind fun _ same => ?_
  refine (setPrev_relinked same _ _).bind fun _ same => ?_
  refine (setPrev_relinked same _ _).bind fun _ same => ?_
  refine Ensures.ite (fun _ => ?_) fun _ => Ensures.step fun before => ?_
  · exact (setChild_relinked same _ _).bind fun _ same => Ensures.ok same
  · exact (setNext_relinked same _ _).bind fun _ same => Ensures.ok same

/-- Taking an item out of a list is a matter of links, whether or not it was in that list. -/
theorem detachItemViaPointer_relinked (same : base.Relinked heap) (parent item : Pointer) :
    Ensures (heap.cjsonDetachItemViaPointer parent item) fun result => base.Relinked result.2 := by
  unfold Heap.cjsonDetachItemViaPointer
  refine Ensures.ite (fun _ => Ensures.ok same) fun _ => ?_
  refine Ensures.step fun child => Ensures.step fun prev => ?_
  refine Ensures.ite (fun _ => Ensures.ok same) fun _ => Ensures.step fun next => ?_
  refine Ensures.iteBind (fun _ => setNext_relinked same _ _) (fun _ => Ensures.ok same) fun _ same => ?_
  refine Ensures.iteBind (fun _ => setPrev_relinked same _ _) (fun _ => Ensures.ok same) fun _ same => ?_
  have clears : ∀ heap : Heap, base.Relinked heap -> Ensures (do
      let heap ← heap.setPrev item none
      let heap ← heap.setNext item none
      .ok (item, heap) : Except MemoryFault (Pointer × Heap)) fun result => base.Relinked result.2 :=
    fun heap same => (setPrev_relinked same _ _).bind fun _ same =>
      (setNext_relinked same _ _).bind fun _ same => Ensures.ok same
  refine Ensures.ite (fun _ => (setChild_relinked same _ _).bind fun _ same => clears _ same) fun _ => ?_
  exact Ensures.iteBind (fun _ => setPrev_relinked same _ _) (fun _ => Ensures.ok same) fun _ same => clears _ same

variable {fields : Addr -> Fields}

/-- Freed nodes keep their fields.  They cannot be read any more, but for those that
are still there nothing has changed. -/
theorem delete_fieldsOf (same : heap.fieldsOf = fields) (fuel : Nat) (cur : Pointer) :
    Ensures (cjsonDelete fuel heap cur) fun after => after.fieldsOf = fields := by
  induction fuel generalizing heap cur with
  | zero => exact Ensures.error
  | succ fuel hypothesis =>
      rw [Heap.cjsonDelete]
      refine Ensures.ite (fun _ => Ensures.ok same) fun _ => ?_
      refine Ensures.step fun next => Ensures.step fun own => Ensures.step fun child => ?_
      have recorded : (heap.record [.child own.type_]).fieldsOf = fields := same
      refine Ensures.iteBind (fun _ => hypothesis recorded _) (fun _ => Ensures.ok same)
        fun _ same => ?_
      have released : ∀ heap : Heap, heap.fieldsOf = fields ->
          Ensures (heap.release cur) fun after => after.fieldsOf = fields :=
        fun _ same => Ensures.step fun _ => Ensures.ok same
      exact (released (Heap.record _ _) same).bind fun _ same => hypothesis same next

/-- A replacement takes over the links of what it replaces, and nothing else of it. -/
theorem replaceItemViaPointer_fieldsOf (same : heap.fieldsOf = fields) (fuel : Nat)
    (parent item replacement : Pointer) :
    Ensures (cjsonReplaceItemViaPointer fuel heap parent item replacement) fun result =>
      result.2.fieldsOf = fields := by
  have ends : ∀ current : Heap, heap.Relinked current -> Ensures (do
      let heap ← current.setNext item none
      let heap ← heap.setPrev item none
      let heap ← cjsonDelete fuel (heap.recordChild parent item) item
      .ok (true, heap) : Except MemoryFault (Bool × Heap)) fun result => result.2.fieldsOf = fields := by
    intro current relinked
    refine (setNext_relinked relinked _ _).bind fun _ relinked => ?_
    refine (setPrev_relinked relinked _ _).bind fun last relinked => ?_
    have recorded : (last.recordChild parent item).fieldsOf = fields := by
      rw [recordChild_fieldsOf, relinked.fieldsOf, same]
    exact (delete_fieldsOf recorded fuel item).bind fun _ same => Ensures.ok same
  have relinked := Relinked.refl heap
  unfold Heap.cjsonReplaceItemViaPointer
  refine Ensures.ite (fun _ => Ensures.ok same) fun _ => Ensures.step fun child => ?_
  refine Ensures.ite (fun _ => Ensures.ok same) fun _ => ?_
  refine Ensures.ite (fun _ => Ensures.ok same) fun _ => ?_
  refine Ensures.step fun next => Ensures.step fun prev => ?_
  refine (setNext_relinked relinked _ _).bind fun _ relinked => ?_
  refine (setPrev_relinked relinked _ _).bind fun _ relinked => ?_
  refine Ensures.iteBind (fun _ => setPrev_relinked relinked _ _) (fun _ => Ensures.ok relinked)
    fun _ relinked => ?_
  refine Ensures.ite (fun _ => ?_) fun _ => ?_
  · refine Ensures.step fun last => ?_
    refine Ensures.iteBind (fun _ => setPrev_relinked relinked _ _) (fun _ => Ensures.ok relinked)
      fun _ relinked => ?_
    exact (setChild_relinked relinked _ _).bind fun _ relinked => ends _ relinked
  · refine Ensures.iteBind (fun _ => setNext_relinked relinked _ _) (fun _ => Ensures.ok relinked)
      fun _ relinked => ?_
    exact Ensures.iteBind (fun _ => setPrev_relinked relinked _ _) (fun _ => Ensures.ok relinked)
      fun _ relinked => ends _ relinked

end Rewiring

/-- The fields of the nodes that are there already, after a call: the two calls that
put something into an object name it first. -/
def Operation.fieldsAfter (heap : Heap) : Operation -> Addr -> Fields
  | .addItemToObject (some object) (some string) (some item) constantKey =>
      if object = item then heap.fieldsOf
      else
        match if constantKey then some string.bytes else (heap.strdup string.bytes).1 with
        | none => heap.fieldsOf
        | some newKey => Function.update heap.fieldsOf item { heap.fieldsOf item with
            string := some newKey
            type_ := { (heap.fieldsOf item).type_ with stringIsConst := constantKey } }
  | .replaceItemInObject _ (some string) (some replacement) _ =>
      match (heap.strdup string.bytes).1 with
      | none => Function.update heap.fieldsOf replacement { heap.fieldsOf replacement with string := none }
      | some newKey => Function.update heap.fieldsOf replacement { heap.fieldsOf replacement with
          string := some newKey
          type_ := { (heap.fieldsOf replacement).type_ with stringIsConst := false } }
  | _ => heap.fieldsOf

section Calls

variable {library : CLibrary} {heap after : Heap} {forest : OrderedForest Addr}

/-- A change of the fields of one node, which has to be there. -/
theorem setFields_fieldsOf (heap : Heap) (node : Addr) (change : Fields -> Fields) :
    Ensures (heap.setFields (some node) change) fun after =>
      after.fieldsOf = Function.update heap.fieldsOf node (change (heap.fieldsOf node)) := by
  unfold Heap.setFields Heap.access
  by_cases live : heap.allocated node = true
  · simp only [if_pos live]
    exact Ensures.ok rfl
  · simp only [if_neg live]
    exact Ensures.error

/-- A copy that is asked for leaves nothing behind but the state of the hooks. -/
theorem strdup_fieldsOf (heap : Heap) (string : Bytes) : (heap.strdup string).2.fieldsOf = heap.fieldsOf := rfl

/-- What has been given back does not matter to a request. -/
theorem strdup_record {heap : Heap} (releases : List Release) (string : Bytes) :
    ((heap.record releases).strdup string).1 = (heap.strdup string).1 := rfl

/-- Adding to an object sets the name of the item and its flag, in this order: the
name is copied before the old one is given back.  If there is no memory for the copy,
the fields stay. -/
theorem addItemToObject_fieldsOf (heap : Heap) (object : Pointer) (string : Option Name) (item : Pointer)
    (constantKey : Bool) :
    Ensures (heap.addItemToObject object string item constantKey) fun result =>
      result.2.fieldsOf = Operation.fieldsAfter heap (.addItemToObject object string item constantKey) := by
  cases string with
  | none => cases object <;> exact Ensures.ok rfl
  | some string =>
      cases object with
      | none => exact Ensures.ok rfl
      | some object =>
          cases item with
          | none => exact Ensures.ok rfl
          | some item =>
              by_cases itself : object = item
              · simp only [Heap.addItemToObject, Operation.fieldsAfter, itself, or_true, if_true]
                exact Ensures.ok rfl
              · simp only [Heap.addItemToObject, Operation.fieldsAfter, Option.isNone_some, Option.some.injEq,
                  itself, Bool.false_eq_true, or_self, if_false]
                have ends : ∀ (later : Heap) (newKey : Bytes), later.fieldsOf = heap.fieldsOf -> Ensures (do
                    let fields ← later.fields (some item)
                    if constantKey = true ∧ string.keyOf = some item ∧ fields.ownsName = true then
                      .error .dangling
                    else do
                      let heap ← (later.record fields.nameReleases).setFields (some item) (fun fields =>
                        { fields with
                          string := some newKey
                          type_ := { fields.type_ with stringIsConst := constantKey } })
                      heap.addItemToArray (some object) (some item) : Except MemoryFault (Bool × Heap))
                    fun result => result.2.fieldsOf = Function.update heap.fieldsOf item
                      { heap.fieldsOf item with
                        string := some newKey
                        type_ := { (heap.fieldsOf item).type_ with stringIsConst := constantKey } } := by
                  intro later newKey kept
                  refine Ensures.step fun fields => Ensures.ite (fun _ => Ensures.error) fun _ => ?_
                  refine (setFields_fieldsOf (later.record _) item _).bind fun named same => ?_
                  rw [record_fieldsOf, kept] at same
                  exact (addItemToArray_relinked (.refl named) _ _).mono fun _ relinked =>
                    relinked.fieldsOf.trans same
                cases constantKey with
                | true => exact ends heap string.bytes rfl
                | false =>
                    simp only [Bool.false_eq_true, if_false]
                    rcases copied : heap.strdup string.bytes with ⟨copy, later⟩
                    have kept : later.fieldsOf = heap.fieldsOf := by
                      rw [← strdup_fieldsOf heap string.bytes, copied]
                    cases copy with
                    | none => exact Ensures.ok kept
                    | some newKey => exact ends later newKey kept

/-- Replacing by name sets the name of the replacement before it looks for the member,
and so the name is set even if there is no such member. -/
theorem replaceItemInObject_fieldsOf (fuel : Nat) (heap : Heap) (object : Pointer) (string : Option Name)
    (replacement : Pointer) (caseSensitive : Bool) :
    Ensures (Heap.replaceItemInObject fuel heap object string replacement caseSensitive) fun result =>
      result.2.fieldsOf =
        Operation.fieldsAfter heap (.replaceItemInObject object string replacement caseSensitive) := by
  cases string with
  | none => exact Ensures.ok rfl
  | some string =>
      cases replacement with
      | none => exact Ensures.ok rfl
      | some replacement =>
          simp only [Heap.replaceItemInObject, Operation.fieldsAfter, Option.isNone_some, Bool.false_eq_true,
            if_false]
          refine Ensures.step fun fields => Ensures.ite (fun _ => Ensures.error) fun _ => ?_
          rw [renameAndReplace, ← strdup_record fields.nameReleases]
          rcases copied : (heap.record fields.nameReleases).strdup string.bytes with ⟨copy, later⟩
          have kept : later.fieldsOf = heap.fieldsOf := by
            have same := strdup_fieldsOf (heap.record fields.nameReleases) string.bytes
            rwa [copied, record_fieldsOf] at same
          cases copy with
          | none =>
              refine (setFields_fieldsOf later replacement _).bind fun named same => ?_
              rw [kept] at same
              exact Ensures.ok same
          | some newKey =>
              refine (setFields_fieldsOf later replacement _).bind fun named same => ?_
              rw [kept] at same
              exact Ensures.step fun found => replaceItemViaPointer_fieldsOf same fuel _ found _

/-- What a constructor returns has been added to nodes that keep their fields. -/
theorem Makes.keepsFields {stage : Addr -> Stage} {run : Nat -> Except MemoryFault (Pointer × Heap)}
    (makes : heap.Makes forest stage run) :
    Settles (fun fuel => Heap.returnNode (run fuel)) fun result =>
      ∀ node ∈ forest.live, result.2.fieldsOf node = heap.fieldsOf node := by
  unfold Heap.returnNode
  apply Settles.bind makes
  rintro ⟨pointer, after⟩ ⟨larger, made⟩
  exact Settles.ok made.fields

/-- A constructor that runs between calls leaves the fields of all nodes that were
there. -/
theorem Constructs.keepsFields {run : Nat -> Heap -> Except MemoryFault (Pointer × Heap)}
    (constructs : Constructs run) (draws : heap.Draws forest) :
    Settles (fun fuel => Heap.returnNode (run fuel heap)) fun result =>
      ∀ node ∈ forest.live, result.2.fieldsOf node = heap.fieldsOf node :=
  Makes.keepsFields (constructs draws (building forest))

/-- The three ways in which the result of a call is wrapped say the same of the heap
that it leaves. -/
theorem returnNode_fieldsOf {fields : Addr -> Fields} {run : Except MemoryFault (Pointer × Heap)}
    (ensures : Ensures run fun result => result.2.fieldsOf = fields) :
    Ensures (returnNode run) fun result => result.2.fieldsOf = fields :=
  ensures.bind fun _ same => Ensures.ok same

theorem returnFlag_fieldsOf {fields : Addr -> Fields} {run : Except MemoryFault (Bool × Heap)}
    (ensures : Ensures run fun result => result.2.fieldsOf = fields) :
    Ensures (returnFlag run) fun result => result.2.fieldsOf = fields :=
  ensures.bind fun _ same => Ensures.ok same

theorem returnNothing_fieldsOf {fields : Addr -> Fields} {run : Except MemoryFault Heap}
    (ensures : Ensures run fun after => after.fieldsOf = fields) :
    Ensures (returnNothing run) fun result => result.2.fieldsOf = fields :=
  ensures.bind fun _ same => Ensures.ok same

theorem detachItemFromArray_relinked (heap : Heap) (array : Pointer) (which : Int) :
    Ensures (heap.cjsonDetachItemFromArray array which) fun result => heap.Relinked result.2 :=
  Ensures.ite (fun _ => Ensures.ok (.refl heap)) fun _ =>
    Ensures.step fun item => detachItemViaPointer_relinked (.refl heap) array item

theorem detachItemFromObject_relinked (fuel : Nat) (heap : Heap) (object : Pointer) (string : Option Bytes)
    (caseSensitive : Bool) :
    Ensures (Heap.cjsonDetachItemFromObject fuel heap object string caseSensitive) fun result =>
      heap.Relinked result.2 :=
  Ensures.step fun item => detachItemViaPointer_relinked (.refl heap) object item

/-- The nodes that are there before a call have the fields that `fieldsAfter` gives them,
for as long as they are there. -/
theorem Represents.keepsFields (consumes : library.ConsumesAtMost) (draws : heap.Draws forest)
    (operation : Operation) (promised : operation.Promised heap) (proper : operation.Proper heap) :
    Settles (fun fuel => operation.run library fuel heap) fun result =>
      ∀ node ∈ forest.live, result.2.fieldsOf node = operation.fieldsAfter heap node := by
  have settled : (∀ fuel, Ensures (operation.run library fuel heap) fun result =>
      result.2.fieldsOf = operation.fieldsAfter heap) ->
      Settles (fun fuel => operation.run library fuel heap) fun result =>
        ∀ node ∈ forest.live, result.2.fieldsOf node = operation.fieldsAfter heap node := by
    intro ensures
    apply ((draws.behaves consumes operation promised proper).ensures ensures).mono
    rintro result ⟨_, same⟩ node _
    rw [same]
  cases operation with
  | createNull => exact Constructs.keepsFields (createNode_constructs _) draws
  | createTrue => exact Constructs.keepsFields (createNode_constructs _) draws
  | createFalse => exact Constructs.keepsFields (createNode_constructs _) draws
  | createBool boolean => exact Constructs.keepsFields (createNode_constructs _) draws
  | createNumber num => exact Constructs.keepsFields (createNode_constructs _) draws
  | createString string => exact Constructs.keepsFields (createText_constructs .string string) draws
  | createRaw raw => exact Constructs.keepsFields (createText_constructs .raw raw) draws
  | createStringReference string => exact Constructs.keepsFields (createNode_constructs _) draws
  | createArray => exact Constructs.keepsFields (createNode_constructs _) draws
  | createObject => exact Constructs.keepsFields (createNode_constructs _) draws
  | createIntArray numbers => exact Constructs.keepsFields (createDoubleArray_constructs _) draws
  | createDoubleArray numbers => exact Constructs.keepsFields (createDoubleArray_constructs numbers) draws
  | createStringArray strings => exact Constructs.keepsFields (createStringArray_constructs strings) draws
  | parse value later =>
      exact Makes.keepsFields (Settles.of_returns (draws.cjsonParse consumes (fun _ _ => rfl) value later))
  | duplicate item recurse =>
      cases item with
      | none => exact settled fun fuel => by cases fuel <;> first | exact Ensures.error | exact Ensures.ok rfl
      | some node =>
          exact Makes.keepsFields
            (draws.cjsonDuplicate (building forest) ((draws.live node).mp (promised node rfl)) recurse)
  | addItemToArray array item =>
      exact settled fun _ => returnFlag_fieldsOf
        ((addItemToArray_relinked (.refl heap) array item).mono fun _ relinked => relinked.fieldsOf)
  | addItemToObject object string item constantKey =>
      exact settled fun _ => returnFlag_fieldsOf (addItemToObject_fieldsOf heap object string item constantKey)
  | insertItemInArray array which newitem =>
      exact settled fun _ => returnFlag_fieldsOf
        ((insertItemInArray_relinked (.refl heap) array which newitem).mono fun _ relinked => relinked.fieldsOf)
  | detachItemViaPointer parent item =>
      exact settled fun _ => returnNode_fieldsOf
        ((detachItemViaPointer_relinked (.refl heap) parent item).mono fun _ relinked => relinked.fieldsOf)
  | detachItemFromArray array which =>
      exact settled fun _ => returnNode_fieldsOf
        ((detachItemFromArray_relinked heap array which).mono fun _ relinked => relinked.fieldsOf)
  | detachItemFromObject object string caseSensitive =>
      exact settled fun fuel => returnNode_fieldsOf
        ((detachItemFromObject_relinked fuel heap object string caseSensitive).mono fun _ relinked =>
          relinked.fieldsOf)
  | delete item => exact settled fun fuel => returnNothing_fieldsOf (delete_fieldsOf rfl fuel item)
  | deleteItemFromArray array which =>
      exact settled fun fuel => returnNothing_fieldsOf
        ((detachItemFromArray_relinked heap array which).bind fun result relinked =>
          delete_fieldsOf ((recordChild_fieldsOf _ _ _).trans relinked.fieldsOf) fuel result.1)
  | deleteItemFromObject object string caseSensitive =>
      exact settled fun fuel => returnNothing_fieldsOf
        ((detachItemFromObject_relinked fuel heap object string caseSensitive).bind fun result relinked =>
          delete_fieldsOf ((recordChild_fieldsOf _ _ _).trans relinked.fieldsOf) fuel result.1)
  | replaceItemViaPointer parent item replacement =>
      exact settled fun fuel =>
        returnFlag_fieldsOf (replaceItemViaPointer_fieldsOf rfl fuel parent item replacement)
  | replaceItemInArray array which newitem =>
      exact settled fun fuel => returnFlag_fieldsOf <| Ensures.ite (fun _ => Ensures.ok rfl) fun _ =>
        Ensures.step fun item => replaceItemViaPointer_fieldsOf rfl fuel array item newitem
  | replaceItemInObject object string replacement caseSensitive =>
      exact settled fun fuel =>
        returnFlag_fieldsOf (replaceItemInObject_fieldsOf fuel heap object string replacement caseSensitive)

end Calls

end Heap
end CJson
