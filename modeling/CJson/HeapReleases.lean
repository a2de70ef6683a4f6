import CJson.HeapFields
import CJson.HeapPatch

/-!
# What the functions that patch give back

Every function behind `apply_patch` is followed with the record of what it hands to the
deallocate hook.  Most of them only rewire pointers and give nothing back.  Deleting asks
for the flags of each node before it frees what hangs on the node, and so does naming an
item.  Two things do not: the overwriting of the root, and the deletion of an item that
was taken out of the list of a parent, since nobody asks this parent for its flags.
-/

namespace CJson

open CString

namespace Heap

/-- Everything that has been given back so far was owned by the node it hung on.  It
is a statement about the record and not about the heap as it is now, so that no later
step can mend it. -/
def Honest (heap : Heap) : Prop := ∀ release ∈ heap.released, release.Lawful

/-- Between two states more has been given back, and under a condition all of that was
lawful.  Nothing is ever struck from the record, whether the condition holds or not. -/
def Since (heap after : Heap) (right : Prop) : Prop :=
  ∃ more, after.released = heap.released ++ more ∧ (right -> ∀ release ∈ more, release.Lawful)

variable {base heap after : Heap} {right : Prop} {fuel : Nat} {caseSensitive : Bool}

namespace Since

theorem refl (heap : Heap) (right : Prop) : heap.Since heap right :=
  ⟨[], (List.append_nil _).symm, fun _ _ impossible => absurd impossible List.not_mem_nil⟩

/-- A state with the same record. -/
theorem congr (since : base.Since heap right) (same : after.released = heap.released) :
    base.Since after right := by
  rcases since with ⟨more, split, lawful⟩
  exact ⟨more, same.trans split, lawful⟩

theorem relinked (since : base.Since heap right) (relinked : heap.Relinked after) : base.Since after right :=
  since.congr relinked.released

/-- A smaller condition. -/
theorem mono {stronger : Prop} (since : base.Since heap right) (implies : stronger -> right) :
    base.Since heap stronger := by
  rcases since with ⟨more, split, lawful⟩
  exact ⟨more, split, fun holds => lawful (implies holds)⟩

theorem record (since : base.Since heap right) {releases : List Release}
    (lawful : right -> ∀ release ∈ releases, release.Lawful) : base.Since (heap.record releases) right := by
  rcases since with ⟨more, split, before⟩
  refine ⟨more ++ releases, by rw [Heap.record, split, List.append_assoc], ?_⟩
  intro holds release member
  rcases List.mem_append.mp member with earlier | new
  · exact before holds release earlier
  · exact lawful holds release new

/-- What was lawful before stays so, and what was not does, too. -/
theorem honest_iff (since : base.Since heap right) (holds : right) : heap.Honest ↔ base.Honest := by
  rcases since with ⟨more, split, lawful⟩
  simp only [Honest, split, List.mem_append]
  exact ⟨fun all release before => all release (Or.inl before), fun all release member =>
    member.elim (all release) (lawful holds release)⟩

theorem not_honest (since : base.Since heap right) (wrong : ¬ base.Honest) : ¬ heap.Honest := by
  rcases since with ⟨more, split, _⟩
  intro lawful
  apply wrong
  intro release member
  exact lawful release (split ▸ List.mem_append_left _ member)

/-! ## Single writes -/

theorem setNext (since : base.Since heap right) (node target : Pointer) :
    Ensures (heap.setNext node target) fun after => base.Since after right :=
  (setNext_relinked (.refl heap) node target).mono fun _ => since.relinked

theorem setPrev (since : base.Since heap right) (node target : Pointer) :
    Ensures (heap.setPrev node target) fun after => base.Since after right :=
  (setPrev_relinked (.refl heap) node target).mono fun _ => since.relinked

theorem setChild (since : base.Since heap right) (node target : Pointer) :
    Ensures (heap.setChild node target) fun after => base.Since after right :=
  (setChild_relinked (.refl heap) node target).mono fun _ => since.relinked

theorem setFields (since : base.Since heap right) (node : Pointer) (change : Fields -> Fields) :
    Ensures (heap.setFields node change) fun after => base.Since after right :=
  Ensures.step fun _ => Ensures.ok (since.congr rfl)

theorem release (since : base.Since heap right) (node : Pointer) :
    Ensures (heap.release node) fun after => base.Since after right :=
  Ensures.step fun _ => Ensures.ok (since.congr rfl)

theorem newItem (since : base.Since heap right) : base.Since heap.newItem.2 right := by
  rw [Heap.newItem]
  split <;> exact since.congr rfl

theorem duplicateText (since : base.Since heap right) (string : Option Bytes) :
    base.Since (heap.duplicateText string).2 right := by
  cases string <;> exact since.congr rfl

theorem duplicateName (since : base.Since heap right) (fields : Fields) :
    base.Since (heap.duplicateName fields).2 right := by
  rw [Heap.duplicateName]
  split
  · exact since
  · exact since.duplicateText _

end Since

/-- `detach_item_from_array` of `utils.rs` rewires pointers only. -/
theorem detachFromArray_relinked (same : base.Relinked heap) (array : Pointer) (which : Nat) :
    Ensures (heap.detachItemFromArray array which) fun result => base.Relinked result.2 := by
  refine Ensures.step fun child => Ensures.step fun c => ?_
  refine Ensures.ite (fun _ => .ok same) fun _ => Ensures.step fun next => Ensures.step fun prev => ?_
  have clears : ∀ heap : Heap, base.Relinked heap -> Ensures (do
      let heap ← heap.setPrev c none
      let heap ← heap.setNext c none
      .ok (c, heap) : Except MemoryFault (Pointer × Heap)) fun result => base.Relinked result.2 :=
    fun heap same => (setPrev_relinked same c none).bind fun _ same =>
      (setNext_relinked same c none).bind fun _ same => .ok same
  refine Ensures.iteBind (fun _ => setNext_relinked same _ _) (fun _ => .ok same) fun _ same => ?_
  refine Ensures.iteBind (fun _ => setPrev_relinked same _ _) (fun _ => .ok same) fun _ same => ?_
  refine Ensures.ite (fun _ => (setChild_relinked same _ _).bind clears) fun _ => ?_
  exact Ensures.iteBind (fun _ => setPrev_relinked same _ _) (fun _ => .ok same) clears

/-! ## Deleting -/

/-- A name is given back by a node that owns it. -/
theorem nameReleases_lawful (fields : Fields) : ∀ release ∈ fields.nameReleases, release.Lawful := by
  intro release member
  rw [Fields.nameReleases] at member
  split at member
  · rename_i owns
    rw [Fields.ownsName, Bool.and_eq_true, Bool.not_eq_true'] at owns
    rw [List.mem_singleton.mp member]
    exact owns.1
  · exact absurd member List.not_mem_nil

theorem releases_lawful (fields : Fields) : ∀ release ∈ fields.releases, release.Lawful := by
  intro release member
  rw [Fields.releases] at member
  rcases List.mem_append.mp member with value | name
  · split at value
    · rename_i owns
      rw [Bool.and_eq_true, Bool.not_eq_true'] at owns
      rw [List.mem_singleton.mp value]
      exact owns.1
    · exact absurd value List.not_mem_nil
  · exact nameReleases_lawful fields release name

/-- The item is a child of a reference: it is deleted by one that only borrows it.
What counts is the flag of the node that the item was taken from, and not any flag of
its own. -/
def Lent (heap : Heap) (parent item : Pointer) : Prop :=
  ∃ lender node, parent = some lender ∧ item = some node ∧ (heap.fieldsOf lender).type_.isReference = true

/-- An item that is deleted as the child of a parent is lawful unless it is lent. -/
theorem recordChild_cases (heap : Heap) (parent item : Pointer) : ∃ releases,
    heap.recordChild parent item = heap.record releases ∧
      ((∀ release ∈ releases, release.Lawful) ↔ ¬ heap.Lent parent item) := by
  have nothing : heap = heap.record [] := by rw [record, List.append_nil]
  have none : ∀ release ∈ ([] : List Release), release.Lawful :=
    fun _ impossible => absurd impossible List.not_mem_nil
  cases parent with
  | none =>
      refine ⟨[], nothing, iff_of_true none ?_⟩
      rintro ⟨_, _, impossible, _⟩
      cases impossible
  | some parent =>
      cases item with
      | none =>
          refine ⟨[], nothing, iff_of_true none ?_⟩
          rintro ⟨_, _, _, impossible, _⟩
          cases impossible
      | some item =>
          refine ⟨_, rfl, ?_⟩
          rw [List.forall_mem_singleton, Release.Lawful, ← Bool.not_eq_true, not_iff_not]
          constructor
          · exact fun reference => ⟨parent, item, rfl, rfl, reference⟩
          · rintro ⟨_, _, same, _, reference⟩
            cases same
            exact reference

theorem Since.recordChild (since : base.Since heap right) {parent item : Pointer}
    (own : right -> ¬ heap.Lent parent item) : base.Since (heap.recordChild parent item) right := by
  rcases heap.recordChild_cases parent item with ⟨releases, same, lawful⟩
  rw [same]
  exact since.record fun holds => lawful.mpr (own holds)

/-- Recording an item that is lent spoils the record. -/
theorem Lent.not_honest {parent item : Pointer} (lent : heap.Lent parent item) :
    ¬ (heap.recordChild parent item).Honest := by
  rcases heap.recordChild_cases parent item with ⟨releases, same, lawful⟩
  intro all
  apply lawful.mp _ lent
  intro release member
  apply all
  rw [same]
  exact List.mem_append_right _ member

namespace Since

/-- `cjson_delete` heeds the flags of every node it comes to. -/
theorem cjsonDelete (since : base.Since heap right) (item : Pointer) :
    Ensures (Heap.cjsonDelete fuel heap item) fun after => base.Since after right := by
  induction fuel generalizing heap item with
  | zero => exact .error
  | succ fuel ih =>
      rw [Heap.cjsonDelete]
      refine Ensures.ite (fun _ => .ok since) fun _ => ?_
      refine Ensures.step fun next => Ensures.step fun fields => Ensures.step fun child => ?_
      have below (descends : (!fields.type_.isReference && child.isSome) = true) :
          base.Since (heap.record [.child fields.type_]) right := by
        rw [Bool.and_eq_true, Bool.not_eq_true'] at descends
        apply since.record
        intro _ release member
        rw [List.mem_singleton.mp member]
        exact descends.1
      refine Ensures.iteBind (fun descends => ih (below descends) child) (fun _ => .ok since) fun heap since => ?_
      apply ((since.record fun _ => releases_lawful fields).release item).bind
      exact fun heap since => ih since next

/-! ## Rewiring -/

variable {array item object : Pointer}

theorem addItemToArray (since : base.Since heap right) :
    Ensures (heap.addItemToArray array item) fun result => base.Since result.2 right :=
  (addItemToArray_relinked (.refl heap) array item).mono fun _ => since.relinked

/-- The old name of the item is given back by an item that owns it. -/
theorem addItemToObject (since : base.Since heap right) (string : Option Name) (constantKey : Bool) :
    Ensures (heap.addItemToObject object string item constantKey) fun result =>
      base.Since result.2 right := by
  unfold Heap.addItemToObject
  split
  · exact .ok since
  refine Ensures.ite (fun _ => .ok since) fun _ => ?_
  rename_i string _
  have kept : base.Since (if constantKey then (some string.bytes, heap) else heap.strdup string.bytes).2 right := by
    split
    · exact since
    · exact since.congr rfl
  dsimp only
  split
  · rename_i copied
    rw [copied] at kept
    exact .ok kept
  · rename_i copied
    rw [copied] at kept
    refine Ensures.step fun fields => Ensures.ite (fun _ => .error) fun _ => ?_
    apply ((kept.record fun _ => nameReleases_lawful fields).setFields item _).bind
    exact fun heap since => since.addItemToArray

theorem cjsonDetachItemFromObject (since : base.Since heap right) (string : Option Bytes) :
    Ensures (heap.cjsonDetachItemFromObject fuel object string caseSensitive) fun result =>
      base.Since result.2 right :=
  (detachItemFromObject_relinked fuel heap object string caseSensitive).mono fun _ => since.relinked

/-- The member that is deleted may be lent. -/
theorem cjsonDeleteItemFromObject (since : base.Since heap right) (string : Option Bytes)
    (own : right -> ∀ item middle, heap.cjsonDetachItemFromObject fuel object string caseSensitive =
      .ok (item, middle) -> ¬ middle.Lent object item) :
    Ensures (heap.cjsonDeleteItemFromObject fuel object string caseSensitive) fun after =>
      base.Since after right := by
  have detached := @cjsonDetachItemFromObject _ _ _ fuel caseSensitive object since string
  apply Ensures.follow
  rintro ⟨item, middle⟩ ran
  exact ((detached.elim ran).recordChild fun holds => own holds item middle ran).cjsonDelete item

theorem utilsStrdup (since : base.Since heap right) (string : Option Bytes) :
    Ensures (heap.utilsStrdup string) fun result => base.Since result.2 right := by
  cases string with
  | none => exact .error
  | some string => exact .ok (since.congr rfl)

/-- Detaching gives nothing back. -/
theorem detachPath (since : base.Since heap right) (path : Option Bytes) :
    Ensures (heap.detachPath fuel object path caseSensitive) fun result => base.Since result.2.2 right := by
  apply (since.utilsStrdup path).bind
  rintro ⟨_ | copy, heap⟩ since
  · exact .ok since
  dsimp only
  split
  · exact .ok since
  refine Ensures.step fun parent => Ensures.step fun isArray => Ensures.ite (fun _ => ?_) fun _ => ?_
  · split
    · exact .ok since
    · apply (detachFromArray_relinked (.refl _) parent _).bind
      exact fun result relinked => .ok (since.relinked relinked)
  · refine Ensures.step fun isObject => Ensures.ite (fun _ => ?_) fun _ => .ok since
    exact (since.cjsonDetachItemFromObject _).bind fun _ since => .ok since

theorem insertItemInArray (since : base.Since heap right) (which : Nat) :
    Ensures (heap.insertItemInArray array which item) fun result => base.Since result.2 right := by
  refine Ensures.step fun head => Ensures.step fun stopped => ?_
  refine Ensures.ite (fun _ => .ok since) fun _ => Ensures.ite (fun _ => ?_) fun _ => ?_
  · exact since.addItemToArray.bind fun _ since => .ok since
  apply (since.setNext item _).bind
  intro heap since
  apply Ensures.step
  intro prev
  apply (since.setPrev item prev).bind
  intro heap since
  apply (since.setPrev _ item).bind
  intro heap since
  refine Ensures.ite (fun _ => ?_) fun _ => Ensures.step fun before => ?_
  · exact (since.setChild array item).bind fun _ since => .ok since
  · exact (since.setNext before item).bind fun _ since => .ok since

/-! ## Copying -/

/-- A copy that is given up is deleted. -/
theorem duplicateNode (since : base.Since heap right) :
    Ensures (heap.duplicateNode fuel item) fun result => base.Since result.2 right := by
  rw [Heap.duplicateNode]
  have created := since.newItem
  rcases made : heap.newItem with ⟨_ | newitem, heap⟩ <;> rw [made] at created
  · exact .ok created
  have fails : ∀ heap, base.Since heap right -> Ensures (do
      let heap ← Heap.cjsonDelete fuel heap (some newitem)
      .ok ((none : Pointer), heap)) fun result => base.Since result.2 right :=
    fun heap since => (since.cjsonDelete _).bind fun _ since => .ok since
  refine Ensures.step fun fields => ?_
  apply (created.setFields _ _).bind
  intro heap since
  have texts := since.duplicateText fields.valuestring
  rcases copied : heap.duplicateText fields.valuestring with ⟨_ | valuestring, heap⟩ <;> rw [copied] at texts
  · exact fails heap texts
  apply (texts.setFields _ _).bind
  intro heap since
  have names := since.duplicateName fields
  rcases copied : heap.duplicateName fields with ⟨_ | string, heap⟩ <;> rw [copied] at names
  · exact fails heap names
  exact (names.setFields _ _).bind fun _ since => .ok since

theorem attachChild (since : base.Since heap right) (parent last newchild : Pointer) :
    Ensures (heap.attachChild parent last newchild) fun after => base.Since after right :=
  .ite (fun _ => (since.setNext _ _).bind fun _ since => since.setPrev _ _) (fun _ => since.setChild _ _)

theorem closeChildren (since : base.Since heap right) (parent last : Pointer) :
    Ensures (heap.closeChildren parent last) fun after => base.Since after right :=
  Ensures.step fun _ => .ite (fun _ => since.setPrev _ _) (fun _ => .ok since)

theorem duplicateChildren {newitem child last : Pointer} {depth : Nat}
    (recursion : ∀ less < fuel, ∀ item depth recurse {heap : Heap}, base.Since heap right ->
      Ensures (Heap.duplicateRec less heap item depth recurse) fun result => base.Since result.2 right)
    (since : base.Since heap right) :
    Ensures (Heap.duplicateChildren fuel heap newitem child last depth) fun result =>
      base.Since result.2 right := by
  induction fuel generalizing heap child last with
  | zero => exact .error
  | succ fuel ih =>
      have fails : ∀ heap, base.Since heap right -> Ensures (do
          let heap ← Heap.cjsonDelete (fuel + 1) heap newitem
          .ok ((none : Option Pointer), heap)) fun result => base.Since result.2 right :=
        fun heap since => (since.cjsonDelete _).bind fun _ since => .ok since
      rw [Heap.duplicateChildren]
      refine Ensures.ite (fun _ => .ok since) fun _ => Ensures.ite (fun _ => fails heap since) fun _ => ?_
      apply (recursion fuel (Nat.lt_succ_self fuel) child (depth + 1) true since).bind
      rintro ⟨newchild, heap⟩ since
      refine Ensures.ite (fun _ => fails heap since) fun _ => ?_
      apply (since.attachChild newitem last newchild).bind
      intro heap since
      apply Ensures.step
      exact fun child => ih (fun less smaller => recursion less (Nat.lt_succ_of_lt smaller)) since

theorem duplicateRec (since : base.Since heap right) (item : Pointer) (depth : Nat) (recurse : Bool) :
    Ensures (Heap.duplicateRec fuel heap item depth recurse) fun result => base.Since result.2 right := by
  induction fuel using Nat.strong_induction_on generalizing heap item depth recurse with
  | _ fuel ih =>
      cases fuel with
      | zero => exact .error
      | succ fuel =>
          rw [Heap.duplicateRec]
          refine Ensures.ite (fun _ => .ok since) fun _ => ?_
          apply since.duplicateNode.bind
          rintro ⟨newitem, heap⟩ since
          refine Ensures.ite (fun _ => .ok since) fun _ => Ensures.ite (fun _ => .ok since) fun _ => ?_
          apply Ensures.step
          intro child
          have children := @duplicateChildren base heap right fuel newitem child none depth
            (fun less smaller item depth recurse heap since =>
              ih less (Nat.lt_succ_of_lt smaller) since item depth recurse)
            since
          apply children.bind
          rintro ⟨_ | last, heap⟩ since
          · exact .ok since
          · exact (since.closeChildren newitem last).bind fun _ since => .ok since

theorem cjsonDuplicate (since : base.Since heap right) (item : Pointer) :
    Ensures (Heap.cjsonDuplicate fuel heap item true) fun result => base.Since result.2 right :=
  since.duplicateRec item 0 true

/-! ## Sorting and comparing -/

theorem splitList (since : base.Since heap right) (second : Pointer) :
    Ensures (heap.splitList second) fun after => base.Since after right := by
  refine Ensures.ite (fun _ => .ok since) fun _ => Ensures.step fun prev => ?_
  refine Ensures.ite (fun _ => .ok since) fun _ => ?_
  exact (since.setNext _ _).bind fun _ since => since.setPrev _ _

theorem addSmaller (since : base.Since heap right) (result resultTail smaller : Pointer) :
    Ensures (heap.addSmaller result resultTail smaller) fun after => base.Since after right :=
  Ensures.ite (fun _ => .ok since) fun _ => (since.setNext _ _).bind fun _ since => since.setPrev _ _

theorem appendRest (since : base.Since heap right) (resultTail rest : Pointer) :
    Ensures (heap.appendRest resultTail rest) fun after => base.Since after right :=
  Ensures.ite (fun _ => .ok since) fun _ => (since.setNext _ _).bind fun _ since => since.setPrev _ _

theorem mergeLoop {merging : Merging} (since : base.Since merging.heap right) :
    Ensures (Heap.mergeLoop caseSensitive fuel merging) fun done => base.Since done.heap right := by
  induction fuel generalizing merging with
  | zero => exact .error
  | succ fuel ih =>
      rcases merging with ⟨heap, first, second, result, resultTail⟩
      refine Ensures.ite (fun _ => .ok since) fun _ => Ensures.step fun order => ?_
      apply (addSmaller since result resultTail _).bind
      intro heap since
      refine Ensures.ite (fun _ => ?_) fun _ => ?_
      · exact Ensures.step fun first => ih since
      · exact Ensures.step fun second => ih since

theorem finishMerge {merging : Merging} (since : base.Since merging.heap right) :
    Ensures (Heap.finishMerge merging) fun result => base.Since result.2 right := by
  refine Ensures.ite (fun _ => .ok since) fun _ => ?_
  apply (since.appendRest _ _).bind
  intro heap since
  refine Ensures.ite (fun _ => .ok since) fun _ => ?_
  exact (since.appendRest _ _).bind fun _ since => .ok since

theorem sortList (since : base.Since heap right) (list : Pointer) :
    Ensures (Heap.sortList caseSensitive fuel heap list) fun result => base.Since result.2 right := by
  induction fuel generalizing heap list with
  | zero => exact .error
  | succ fuel ih =>
      refine Ensures.ite (fun _ => .ok since) fun _ => Ensures.step fun next => ?_
      refine Ensures.ite (fun _ => .ok since) fun _ => Ensures.step fun sorted => ?_
      refine Ensures.ite (fun _ => .ok since) fun _ => Ensures.step fun second => ?_
      apply (since.splitList second).bind
      intro heap since
      apply (ih since list).bind
      rintro ⟨first, heap⟩ since
      apply (ih since second).bind
      rintro ⟨second, heap⟩ since
      apply (mergeLoop since).bind
      exact fun merging since => finishMerge since

theorem sortObject (since : base.Since heap right) :
    Ensures (Heap.sortObject fuel heap object caseSensitive) fun after => base.Since after right := by
  refine Ensures.ite (fun _ => .ok since) fun _ => Ensures.step fun child => ?_
  exact (since.sortList child).bind fun result since => since.setChild object result.1

theorem compareChildren {a b : Pointer} {named : Bool}
    (recursion : ∀ less < fuel, ∀ {a b heap}, base.Since heap right ->
      Ensures (Heap.compareJson less heap a b caseSensitive) fun result => base.Since result.2 right)
    (since : base.Since heap right) :
    Ensures (Heap.compareChildren fuel heap a b caseSensitive named) fun result =>
      base.Since result.2 right := by
  induction fuel generalizing heap a b with
  | zero => exact .error
  | succ fuel ih =>
      rw [Heap.compareChildren]
      refine Ensures.ite (fun _ => ?_) fun _ => .ok since
      refine Ensures.iteBind (fun _ => .any) (fun _ => .any) fun order _ => ?_
      refine Ensures.ite (fun _ => .ok since) fun _ => ?_
      apply (recursion fuel (Nat.lt_succ_self fuel) since).bind
      rintro ⟨equal, heap⟩ since
      refine Ensures.ite (fun _ => .ok since) fun _ => Ensures.step fun a => Ensures.step fun b => ?_
      exact ih (fun less smaller => recursion less (Nat.lt_succ_of_lt smaller)) since

theorem compareJson {a b : Pointer} (since : base.Since heap right) :
    Ensures (Heap.compareJson fuel heap a b caseSensitive) fun result => base.Since result.2 right := by
  induction fuel using Nat.strong_induction_on generalizing heap a b with
  | _ fuel ih =>
      cases fuel with
      | zero => exact .error
      | succ fuel =>
          have below : ∀ less < fuel, ∀ {a b heap}, base.Since heap right ->
              Ensures (Heap.compareJson less heap a b caseSensitive) fun result => base.Since result.2 right :=
            fun less smaller => ih less (Nat.lt_succ_of_lt smaller)
          rw [Heap.compareJson]
          refine Ensures.ite (fun _ => .ok since) fun _ => ?_
          refine Ensures.step fun aFields => Ensures.step fun bFields => ?_
          refine Ensures.ite (fun _ => .ok since) fun _ => ?_
          split
          · exact .ok since
          · split
            · exact .error
            · exact .ok since
          · exact Ensures.step fun a => Ensures.step fun b => compareChildren below since
          · apply since.sortObject.bind
            intro heap since
            apply since.sortObject.bind
            intro heap since
            exact Ensures.step fun a => Ensures.step fun b => compareChildren below since
          · exact .ok since

end Since

end Heap
end CJson
