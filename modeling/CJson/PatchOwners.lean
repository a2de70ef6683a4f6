import CJson.Confinement
import CJson.HeapReleases
import Mathlib.Logic.Relation

/-!
# Patches and what a node does not own

A constant name, and the string value and the children of a reference, are not to be
given back.  `apply_patch` keeps to that but for five ways to go wrong, all of them
without a look at the flags: the root is overwritten by nothing or by a copy, an item is
removed from the list of a reference, a member of a reference has to make way for a new
one, and an item that was moved out of the list of a reference finds no place.  The memory
may be anything here: lists may be shared, and references may borrow from the document
itself.
-/

namespace CJson

open CString

namespace Heap

variable {base heap after : Heap} {right : Prop} {fuel : Nat} {caseSensitive : Bool}
  {object patch path lender value : Pointer} {root : Addr}

/-! ## What is not owned -/

/-- Something hangs on the node that it does not own: a constant name, or a string value
or children while the node is a reference. -/
def Borrows (heap : Heap) (node : Addr) : Prop :=
  ((heap.fieldsOf node).type_.stringIsConst = true ∧ (heap.fieldsOf node).string.isSome = true) ∨
    ((heap.fieldsOf node).type_.isReference = true ∧
      ((heap.fieldsOf node).valuestring.isSome = true ∨ (heap.childOf node).isSome = true))

/-- The name of the node is constant.  A copy inherits this from its source, together
with the name itself. -/
def NamedConstant (heap : Heap) (node : Addr) : Prop :=
  (heap.fieldsOf node).type_.stringIsConst = true ∧ (heap.fieldsOf node).string.isSome = true

/-! ## What a patch asks for -/

/-- What `apply_patch` reads first: the member `path`, which is a string, its text, and
the operation. -/
structure Asked (fuel : Nat) (heap : Heap) (patch : Pointer) (caseSensitive : Bool) (path : Pointer)
    (pointer : Bytes) (operation : PatchOperation) : Prop where
  found : heap.getObjectItem fuel patch (some pathName) caseSensitive = .ok path
  isString : heap.hasBase path .string = .ok true
  decoded : heap.decodePatchOperation fuel patch caseSensitive = .ok operation
  stored : ∃ fields, heap.fields path = .ok fields ∧ fields.valuestring = some pointer

/-- The value that an operation is about to put where its path says.  `current` is the
memory at that moment, and `lender` the parent that the value was taken from; a copy was
taken from nowhere. -/
inductive Brings (fuel : Nat) (heap : Heap) (object patch : Pointer) (pointer : Bytes) (caseSensitive : Bool) :
    PatchOperation -> Heap -> Pointer -> Addr -> Prop
  | add {source : Pointer} {value : Addr} {current : Heap}
      (found : heap.getObjectItem fuel patch (some valueName) caseSensitive = .ok source)
      (copied : heap.cjsonDuplicate fuel source true = .ok (some value, current)) :
      Brings fuel heap object patch pointer caseSensitive .add current none value
  | replace {oldItem parent source : Pointer} {value : Addr} {taken cleared current : Heap}
      (detached : heap.detachPath fuel object (some pointer) caseSensitive = .ok (oldItem, parent, taken))
      (there : oldItem.isSome = true)
      (deleted : (taken.recordChild parent oldItem).cjsonDelete fuel oldItem = .ok cleared)
      (found : cleared.getObjectItem fuel patch (some valueName) caseSensitive = .ok source)
      (copied : cleared.cjsonDuplicate fuel source true = .ok (some value, current)) :
      Brings fuel heap object patch pointer caseSensitive .replace current none value
  | move {source lender : Pointer} {fields : Fields} {value : Addr} {current : Heap}
      (found : heap.getObjectItem fuel patch (some fromName) caseSensitive = .ok source)
      (isString : heap.hasBase source .string = .ok true) (read : heap.fields source = .ok fields)
      (detached : heap.detachPath fuel object fields.valuestring caseSensitive = .ok (some value, lender, current)) :
      Brings fuel heap object patch pointer caseSensitive .move current lender value
  | copy {source place : Pointer} {fields : Fields} {value : Addr} {current : Heap}
      (found : heap.getObjectItem fuel patch (some fromName) caseSensitive = .ok source)
      (isString : heap.hasBase source .string = .ok true) (read : heap.fields source = .ok fields)
      (walked : heap.getItemFromPointer fuel object fields.valuestring caseSensitive = .ok place)
      (there : place.isSome = true)
      (copied : heap.cjsonDuplicate fuel place true = .ok (some value, current)) :
      Brings fuel heap object patch pointer caseSensitive .copy current none value

/-- The copy of the path that the end of `apply_patch` makes, or fails to make. -/
def CopiesPath (heap : Heap) (path : Pointer) (copy : Option Bytes) (later : Heap) : Prop :=
  ∃ fields, heap.fields path = .ok fields ∧ heap.utilsStrdup fields.valuestring = .ok (copy, later)

/-- The path leads to a parent, which may be NULL, and a last token, decoded.  This is
what the end of `apply_patch` makes of the path, after the value has been taken from
where it was. -/
def Targets (fuel : Nat) (heap : Heap) (object path : Pointer) (caseSensitive : Bool) (parent : Pointer)
    (name : Bytes) (later : Heap) : Prop :=
  ∃ copy parentPointer childPointer, heap.CopiesPath path (some copy) later ∧
    splitPointer copy = some (parentPointer, childPointer) ∧
    later.getItemFromPointer fuel object (some parentPointer) caseSensitive = .ok parent ∧
    name = decodePointerInplace childPointer

/-- There is no room in the parent for a value of this name: there is no parent, the
parent is an array and the name neither `-` nor an index up to the end, or the parent is
no container at all. -/
inductive NoRoom (heap : Heap) : Pointer -> Bytes -> Prop
  | nothing {name : Bytes} : NoRoom heap none name
  | noIndex {parent : Addr} {name : Bytes} (array : heap.hasBase (some parent) .array = .ok true)
      (notDash : compareBy id name [45] ≠ 0) (decoded : decodeArrayIndexFromPointer name = none) :
      NoRoom heap (some parent) name
  | pastEnd {parent : Addr} {name : Bytes} {index left : Nat} {first stopped : Pointer}
      (array : heap.hasBase (some parent) .array = .ok true) (notDash : compareBy id name [45] ≠ 0)
      (decoded : decodeArrayIndexFromPointer name = some index) (list : heap.child (some parent) = .ok first)
      (ended : heap.insertLoop index first = .ok (stopped, left)) (past : 0 < left) :
      NoRoom heap (some parent) name
  | noContainer {parent : Addr} {name : Bytes} (notArray : heap.hasBase (some parent) .array = .ok false)
      (notObject : heap.hasBase (some parent) .object = .ok false) : NoRoom heap (some parent) name

/-- There is no place for a value where the path says: the path cannot be copied or has no
slash, or there is no room where it leads. -/
inductive NoPlace (fuel : Nat) (heap : Heap) (object path : Pointer) (caseSensitive : Bool) : Prop
  | refused {later : Heap} (copied : heap.CopiesPath path none later)
  | unsplit {later : Heap} {copy : Bytes} (copied : heap.CopiesPath path (some copy) later)
      (split : splitPointer copy = none)
  | leads {later : Heap} {parent : Pointer} {name : Bytes}
      (targets : heap.Targets fuel object path caseSensitive parent name later) (noRoom : later.NoRoom parent name)

/-- The parent is an object that has a member of this name already, and it is a
reference: the member that makes way for the new one is only borrowed. -/
inductive Supplants (fuel : Nat) (heap : Heap) (parent : Pointer) (name : Bytes) (caseSensitive : Bool) : Prop
  | mk {middle : Heap} {item : Pointer} (notArray : heap.hasBase parent .array = .ok false)
      (isObject : heap.hasBase parent .object = .ok true)
      (detached : heap.cjsonDetachItemFromObject fuel parent (some name) caseSensitive = .ok (item, middle))
      (lent : middle.Lent parent item)

/-- The path leads to such a parent and such a name. -/
def SupplantsAt (fuel : Nat) (heap : Heap) (object path : Pointer) (caseSensitive : Bool) : Prop :=
  ∃ parent name later, heap.Targets fuel object path caseSensitive parent name later ∧
    later.Supplants fuel parent name caseSensitive

/-- The path is empty, and the operation is one that overwrites the root then.  A move
and a copy go on to split the path, and fail. -/
def AtRoot (pointer : Bytes) (operation : PatchOperation) : Prop :=
  first pointer = 0 ∧ operation ≠ .move ∧ operation ≠ .copy

instance (pointer : Bytes) (operation : PatchOperation) : Decidable (AtRoot pointer operation) :=
  inferInstanceAs (Decidable (_ ∧ _))

/-- The ways in which `apply_patch` gives back what is not its own.  The root, which
borrows something, is overwritten by nothing (`removesRoot`) or by a copy that is made,
or the copy has a constant name (`replacesRoot`); an item is deleted that was a child of
a reference (`deletesLent`); a child of a reference makes way for a member of its name
(`supplantsLent`); a child of a reference is moved to where there is no place for it
(`dropsLent`). -/
inductive Endangers (fuel : Nat) (heap : Heap) (object patch : Pointer) (caseSensitive : Bool) : Prop
  | removesRoot {path : Pointer} {pointer : Bytes} {root : Addr}
      (asked : heap.Asked fuel patch caseSensitive path pointer .remove) (empty : first pointer = 0)
      (there : object = some root) (borrows : heap.Borrows root)
  | replacesRoot {path source : Pointer} {pointer : Bytes} {root copy : Addr} {operation : PatchOperation}
      {after : Heap} (asked : heap.Asked fuel patch caseSensitive path pointer operation)
      (empty : first pointer = 0) (puts : operation = .add ∨ operation = .replace) (there : object = some root)
      (found : heap.getObjectItem fuel patch (some valueName) caseSensitive = .ok source)
      (copied : heap.cjsonDuplicate fuel source true = .ok (some copy, after))
      (borrows : after.Borrows root ∨ after.NamedConstant copy)
  | deletesLent {path item parent : Pointer} {pointer : Bytes} {operation : PatchOperation} {after : Heap}
      (asked : heap.Asked fuel patch caseSensitive path pointer operation) (below : first pointer ≠ 0)
      (deletes : operation = .remove ∨ operation = .replace)
      (detached : heap.detachPath fuel object (some pointer) caseSensitive = .ok (item, parent, after))
      (lent : after.Lent parent item)
  | supplantsLent {path lender : Pointer} {pointer : Bytes} {operation : PatchOperation} {value : Addr}
      {current : Heap} (asked : heap.Asked fuel patch caseSensitive path pointer operation)
      (below : ¬ AtRoot pointer operation)
      (brings : heap.Brings fuel object patch pointer caseSensitive operation current lender value)
      (supplants : current.SupplantsAt fuel object path caseSensitive)
  | dropsLent {path lender : Pointer} {pointer : Bytes} {operation : PatchOperation} {value : Addr}
      {current : Heap} (asked : heap.Asked fuel patch caseSensitive path pointer operation)
      (below : ¬ AtRoot pointer operation)
      (brings : heap.Brings fuel object patch pointer caseSensitive operation current lender value)
      (lent : current.Lent lender (some value)) (noPlace : current.NoPlace fuel object path caseSensitive)

/-! ## Nothing else is wrong -/

/-- What is taken from nowhere is not lent. -/
theorem not_lent_none (heap : Heap) (item : Pointer) : ¬ heap.Lent none item := by
  rintro ⟨_, _, impossible, _⟩
  cases impossible

theorem utilsStrdup_fieldsOf (heap : Heap) (string : Option Bytes) :
    Ensures (heap.utilsStrdup string) fun result => result.2.fieldsOf = heap.fieldsOf := by
  cases string with
  | none => exact .error
  | some string => exact .ok rfl

/-- What is lent depends on the flags alone. -/
theorem lent_congr {parent item : Pointer} (same : after.fieldsOf = heap.fieldsOf) :
    after.Lent parent item ↔ heap.Lent parent item := by
  rw [Lent, Lent, same]

/-- Copying the path leaves it as it is what is lent. -/
theorem Targets.fieldsOf {parent : Pointer} {name : Bytes} {later : Heap}
    (targets : heap.Targets fuel object path caseSensitive parent name later) :
    later.fieldsOf = heap.fieldsOf := by
  rcases targets with ⟨copy, _, _, ⟨fields, _, copied⟩, _⟩
  exact (utilsStrdup_fieldsOf heap fields.valuestring).elim copied

/-- An item that finds no place leaves the list as it was. -/
theorem insertItemInArray_past {array newitem first stopped : Pointer} {which left : Nat}
    (list : heap.child array = .ok first) (ended : heap.insertLoop which first = .ok (stopped, left))
    (past : 0 < left) : heap.insertItemInArray array which newitem = .ok (false, heap) := by
  rw [insertItemInArray, list, Except.ok_bind, ended, Except.ok_bind]
  exact if_pos past

/-- It finds no place exactly after the end of the list, and then it has changed
nothing. -/
theorem insertItemInArray_false {array newitem : Pointer} {which : Nat} {after : Heap}
    (ran : heap.insertItemInArray array which newitem = .ok (false, after)) :
    after = heap ∧ ∃ first stopped left, heap.child array = .ok first ∧
      heap.insertLoop which first = .ok (stopped, left) ∧ 0 < left := by
  have inserts : Ensures (heap.insertItemInArray array which newitem) fun result => result.1 = false ->
      result.2 = heap ∧ ∃ first stopped left, heap.child array = .ok first ∧
        heap.insertLoop which first = .ok (stopped, left) ∧ 0 < left := by
    refine Ensures.follow fun first list => Ensures.follow fun stopped ended => ?_
    refine Ensures.ite (fun past => .ok fun _ => ⟨rfl, first, stopped.1, stopped.2, list, ended, past⟩) fun _ => ?_
    refine Ensures.ite (fun _ => Ensures.step fun _ => .ok fun inserted => by cases inserted) fun _ => ?_
    refine Ensures.step fun _ => Ensures.step fun _ => Ensures.step fun _ => Ensures.step fun _ => ?_
    refine Ensures.ite (fun _ => ?_) fun _ => Ensures.step fun _ => ?_
    · exact Ensures.step fun _ => .ok fun inserted => by cases inserted
    · exact Ensures.step fun _ => .ok fun inserted => by cases inserted
  exact inserts.elim ran rfl

namespace Since

/-- The value that is dropped may be lent. -/
theorem dropValue (since : base.Since heap right) (status : Nat) (own : right -> ¬ heap.Lent lender value) :
    Ensures (heap.dropValue fuel status lender value) fun result => base.Since result.2 right :=
  ((since.recordChild own).cjsonDelete value).bind fun _ since => .ok since

theorem addToParent (since : base.Since heap right) {parent : Pointer} (name : Bytes)
    (drops : right -> heap.NoRoom parent name -> ¬ heap.Lent lender value)
    (supplants : right -> ¬ heap.Supplants fuel parent name caseSensitive) :
    Ensures (heap.addToParent fuel parent name lender value caseSensitive) fun result =>
      base.Since result.2 right := by
  have dropped : ∀ status, heap.NoRoom parent name ->
      Ensures (heap.dropValue fuel status lender value) fun result => base.Since result.2 right :=
    fun status noRoom => since.dropValue status fun holds => drops holds noRoom
  rcases parent with _ | parent
  · exact dropped 9 .nothing
  refine Ensures.ite (fun impossible => absurd impossible Bool.false_ne_true) fun _ => ?_
  refine Ensures.follow fun isArray array => Ensures.ite (fun holds => ?_) fun notArray => ?_
  · rw [holds] at array
    refine Ensures.ite (fun _ => since.addItemToArray.bind fun _ since => .ok since) fun notDash => ?_
    split
    · exact dropped 11 (.noIndex array notDash ‹_›)
    · rename_i index decoded
      refine Ensures.follow ?_
      rintro ⟨inserted, final⟩ ran
      have inserts := (since.insertItemInArray index).elim ran
      refine Ensures.ite (fun _ => .ok inserts) fun notInserted => ?_
      rw [Bool.not_eq_true] at notInserted
      subst notInserted
      rcases insertItemInArray_false ran with ⟨rfl, _, _, _, list, ended, past⟩
      exact dropped 10 (.pastEnd array notDash decoded list ended past)
  · rw [Bool.not_eq_true] at notArray
    subst notArray
    refine Ensures.follow fun isObject there => Ensures.ite (fun holds => ?_) fun notObject => ?_
    · rw [holds] at there
      apply (since.cjsonDeleteItemFromObject _ _).bind
      · exact fun heap since => (since.addItemToObject _ false).bind fun _ since => .ok since
      · exact fun holds item middle detached lent => supplants holds (.mk array there detached lent)
    · rw [Bool.not_eq_true] at notObject
      subst notObject
      exact dropped 9 (.noContainer array there)

theorem addToPath (since : base.Since heap right)
    (drops : right -> heap.NoPlace fuel object path caseSensitive -> ¬ heap.Lent lender value)
    (supplants : right -> ¬ heap.SupplantsAt fuel object path caseSensitive) :
    Ensures (heap.addToPath fuel object path lender value caseSensitive) fun result =>
      base.Since result.2 right := by
  refine Ensures.follow fun fields read => Ensures.follow ?_
  rintro ⟨copy, later⟩ copied
  have since := (since.utilsStrdup fields.valuestring).elim copied
  have same := (utilsStrdup_fieldsOf heap fields.valuestring).elim copied
  have kept : right -> heap.NoPlace fuel object path caseSensitive -> ¬ later.Lent lender value :=
    fun holds noPlace => (lent_congr same).not.mpr (drops holds noPlace)
  rcases copy with _ | copy
  · exact since.dropValue 9 fun holds => kept holds (.refused ⟨fields, read, copied⟩)
  dsimp only
  rcases split : splitPointer copy with _ | ⟨parentPointer, childPointer⟩
  · exact Ensures.step fun _ => since.dropValue 9 fun holds => kept holds (.unsplit ⟨fields, read, copied⟩ split)
  refine Ensures.follow fun parent walked => ?_
  have targets : heap.Targets fuel object path caseSensitive parent (decodePointerInplace childPointer) later :=
    ⟨copy, parentPointer, childPointer, ⟨fields, read, copied⟩, split, walked, rfl⟩
  apply since.addToParent
  · exact fun holds noRoom => kept holds (.leads targets noRoom)
  · exact fun holds member => supplants holds ⟨parent, _, later, targets, member⟩

theorem addValue (since : base.Since heap right)
    (supplants : right -> ∀ source copy after,
      heap.getObjectItem fuel patch (some valueName) caseSensitive = .ok source ->
      heap.cjsonDuplicate fuel source true = .ok (some copy, after) ->
      ¬ after.SupplantsAt fuel object path caseSensitive) :
    Ensures (heap.addValue fuel object patch path caseSensitive) fun result => base.Since result.2 right := by
  refine Ensures.follow fun source found => Ensures.ite (fun _ => .ok since) fun _ => Ensures.follow ?_
  rintro ⟨_ | copy, after⟩ copied <;> have later := (since.cjsonDuplicate source).elim copied
  · exact .ok later
  refine Ensures.ite (fun impossible => absurd impossible Bool.false_ne_true) fun _ => ?_
  exact later.addToPath (fun _ _ => not_lent_none after _) fun holds => supplants holds source copy after found copied

theorem transferValue (since : base.Since heap right) {operation : PatchOperation} {pointer : Bytes}
    (transfers : operation = .move ∨ operation = .copy)
    (own : right -> ∀ current lender value,
      heap.Brings fuel object patch pointer caseSensitive operation current lender value ->
        (current.NoPlace fuel object path caseSensitive -> ¬ current.Lent lender (some value)) ∧
          ¬ current.SupplantsAt fuel object path caseSensitive) :
    Ensures (heap.transferValue fuel object patch path operation caseSensitive) fun result =>
      base.Since result.2 right := by
  refine Ensures.follow fun source found => Ensures.follow fun isString string => ?_
  refine Ensures.ite (fun _ => .ok since) fun stringly => Ensures.follow fun fields read => ?_
  rw [Bool.not_eq_true', Bool.not_eq_false] at stringly
  subst stringly
  refine Ensures.ite (fun move => ?_) fun notMove => ?_
  · subst move
    refine Ensures.follow ?_
    rintro ⟨_ | value, lender, current⟩ detached <;> have later := (since.detachPath fields.valuestring).elim detached
    · exact .ok later
    refine Ensures.ite (fun impossible => absurd impossible Bool.false_ne_true) fun _ => ?_
    have brings : heap.Brings fuel object patch pointer caseSensitive .move current lender value :=
      .move found string read detached
    exact later.addToPath (fun holds => (own holds current lender value brings).1)
      fun holds => (own holds current lender value brings).2
  · cases transfers.resolve_left notMove
    refine Ensures.follow fun place walked => Ensures.ite (fun _ => .ok since) fun there => ?_
    rw [Bool.not_eq_true, Option.isNone_eq_false_iff] at there
    refine Ensures.follow ?_
    rintro ⟨_ | value, current⟩ copied <;> have later := (since.cjsonDuplicate place).elim copied
    · exact .ok later
    refine Ensures.ite (fun impossible => absurd impossible Bool.false_ne_true) fun _ => ?_
    have brings : heap.Brings fuel object patch pointer caseSensitive .copy current none value :=
      .copy found string read walked there copied
    exact later.addToPath (fun _ _ => not_lent_none current _) fun holds => (own holds current none value brings).2

/-- What is deleted from the place of the path, and what is put there.  The two
conditions name the releases that could go wrong: that of a child which the parent
borrows, and that of a member which the new value supplants in a borrowed object. -/
theorem applyAtPath (since : base.Since heap right) {operation : PatchOperation} {pointer : Bytes}
    (known : operation = .remove ∨ operation = .add ∨ operation = .replace ∨ operation = .move ∨ operation = .copy)
    (deletes : right -> operation = .remove ∨ operation = .replace -> ∀ item parent after,
      heap.detachPath fuel object (some pointer) caseSensitive = .ok (item, parent, after) ->
        ¬ after.Lent parent item)
    (own : right -> ∀ current lender value,
      heap.Brings fuel object patch pointer caseSensitive operation current lender value ->
        (current.NoPlace fuel object path caseSensitive -> ¬ current.Lent lender (some value)) ∧
          ¬ current.SupplantsAt fuel object path caseSensitive) :
    Ensures (heap.applyAtPath fuel object patch path pointer operation caseSensitive) fun result =>
      base.Since result.2 right := by
  refine Ensures.ite (fun removes => Ensures.follow ?_) fun keeps => ?_
  · rintro ⟨oldItem, parent, taken⟩ detached
    have later := (since.detachPath (some pointer)).elim detached
    refine Ensures.ite (fun _ => .ok later) fun there => Ensures.follow fun cleared deleted => ?_
    rw [Bool.not_eq_true, Option.isNone_eq_false_iff] at there
    have recorded := later.recordChild fun holds => deletes holds removes oldItem parent taken detached
    have since := (recorded.cjsonDelete oldItem).elim deleted
    refine Ensures.ite (fun _ => .ok since) fun notRemove => ?_
    cases removes.resolve_left notRemove
    apply since.addValue
    intro holds source copy after found copied
    exact (own holds after none copy (.replace detached there deleted found copied)).2
  refine Ensures.ite (fun transfers => since.transferValue transfers own) fun stays => ?_
  have adds : operation = .add := by tauto
  subst adds
  apply since.addValue
  intro holds source copy after found copied
  exact (own holds after none copy (.add found copied)).2

end Since

theorem fields_ensures {node : Addr} : Ensures (heap.fields (some node)) (· = heap.fieldsOf node) := by
  apply access_ensures.bind
  rintro _ ⟨⟨⟩, _⟩
  exact .ok rfl

theorem child_ensures {node : Addr} : Ensures (heap.child (some node)) (· = heap.childOf node) := by
  apply access_ensures.bind
  rintro _ ⟨⟨⟩, _⟩
  exact .ok rfl

theorem readNode_fields (heap : Heap) (node : Addr) :
    Ensures (heap.readNode (some node)) fun contents => contents.fields = heap.fieldsOf node := by
  refine Ensures.step fun _ => Ensures.step fun _ => Ensures.step fun _ => ?_
  apply fields_ensures.bind
  exact fun fields same => .ok same

theorem release_fieldsOf (heap : Heap) (node : Pointer) :
    Ensures (heap.release node) fun after => after.released = heap.released ∧ after.fieldsOf = heap.fieldsOf :=
  Ensures.step fun _ => .ok ⟨rfl, rfl⟩

/-- What a node that is overwritten gives back is its own unless it borrows something. -/
theorem overwrittenTexts_lawful (own : ¬ heap.Borrows root) :
    ∀ release ∈ overwrittenTexts (heap.fieldsOf root), release.Lawful := by
  intro release member
  rw [overwrittenTexts] at member
  rcases List.mem_append.mp member with name | text
  · split at name
    · rename_i named
      rw [List.mem_singleton.mp name, Release.Lawful, ← Bool.not_eq_true]
      exact fun constant => own (.inl ⟨constant, named⟩)
    · exact absurd name List.not_mem_nil
  · split at text
    · rename_i there
      rw [List.mem_singleton.mp text, Release.Lawful, ← Bool.not_eq_true]
      exact fun reference => own (.inr ⟨reference, .inl there⟩)
    · exact absurd text List.not_mem_nil

namespace Since

theorem overwriteItem (since : base.Since heap right) {root : Addr} (replacement : Contents)
    (own : right -> ¬ heap.Borrows root) :
    Ensures (heap.overwriteItem fuel (some root) replacement) fun after =>
      base.Since after right ∧ after.fieldsOf root = replacement.fields := by
  refine Ensures.ite (fun impossible => absurd impossible Bool.false_ne_true) fun _ => ?_
  apply fields_ensures.bind
  rintro _ rfl
  have texts := since.record fun holds => overwrittenTexts_lawful (own holds)
  apply child_ensures.bind
  rintro _ rfl
  have emptied : ∀ heap, base.Since heap right -> Ensures (do
      let heap ← heap.setNext (some root) replacement.next
      let heap ← heap.setPrev (some root) replacement.prev
      let heap ← heap.setChild (some root) replacement.child
      heap.setFields (some root) fun _ => replacement.fields) fun after =>
        base.Since after right ∧ after.fieldsOf root = replacement.fields := by
    intro heap since
    apply (since.setNext _ _).bind
    intro heap since
    apply (since.setPrev _ _).bind
    intro heap since
    apply (since.setChild _ _).bind
    intro heap since
    apply access_ensures.bind
    rintro _ ⟨⟨⟩, _⟩
    exact .ok ⟨since.congr rfl, Function.update_self _ _ _⟩
  refine Ensures.iteBind (fun there => ?_) (fun _ => .ok texts) fun heap since => emptied heap since
  apply Since.cjsonDelete
  apply texts.record
  intro holds release member
  rw [List.mem_singleton.mp member, Release.Lawful, ← Bool.not_eq_true]
  exact fun reference => own holds (.inr ⟨reference, .inr there⟩)

theorem overwriteRoot (since : base.Since heap right) {operation : PatchOperation} {root : Addr}
    (removes : right -> operation = .remove -> ¬ heap.Borrows root)
    (replaces : right -> operation ≠ .remove -> ∀ source copy after,
      heap.getObjectItem fuel patch (some valueName) caseSensitive = .ok source ->
      heap.cjsonDuplicate fuel source true = .ok (some copy, after) ->
      ¬ (after.Borrows root ∨ after.NamedConstant copy)) :
    Ensures (heap.overwriteRoot fuel (some root) patch operation caseSensitive) fun result =>
      base.Since result.2 right := by
  refine Ensures.ite (fun remove => ?_) fun keeps => ?_
  · exact (since.overwriteItem _ fun holds => removes holds remove).bind fun _ since => .ok since.1
  refine Ensures.follow fun source found => Ensures.ite (fun _ => .ok since) fun _ => Ensures.follow ?_
  rintro ⟨_ | copy, after⟩ copied <;> have later := (since.cjsonDuplicate source).elim copied
  · exact .ok later
  refine Ensures.ite (fun impossible => absurd impossible Bool.false_ne_true) fun _ => ?_
  have own : right -> ¬ (after.Borrows root ∨ after.NamedConstant copy) :=
    fun holds => replaces holds keeps source copy after found copied
  apply (readNode_fields after copy).bind
  intro replacement same
  apply (later.overwriteItem replacement fun holds borrows => own holds (.inl borrows)).bind
  rintro heap ⟨since, overwritten⟩
  apply (release_fieldsOf heap (some copy)).bind
  rintro heap ⟨released, flags⟩
  apply fields_ensures.bind
  rintro _ rfl
  rw [flags, overwritten, same]
  refine (((since.congr released).record ?_).setFields _ _).bind fun _ since => .ok since
  intro holds release member
  split at member
  · rename_i named
    rw [List.mem_singleton.mp member, Release.Lawful, ← Bool.not_eq_true]
    exact fun constant => own holds (.inr ⟨constant, named⟩)
  · exact absurd member List.not_mem_nil

/-- There is no root to overwrite. -/
theorem overwriteRoot_null (since : base.Since heap right) (operation : PatchOperation) :
    Ensures (heap.overwriteRoot fuel none patch operation caseSensitive) fun result =>
      base.Since result.2 right := by
  refine Ensures.ite (fun _ => .ok since) fun _ => ?_
  refine Ensures.step fun source => Ensures.ite (fun _ => .ok since) fun _ => ?_
  apply (since.cjsonDuplicate source).bind
  rintro ⟨copy, after⟩ since
  refine Ensures.ite (fun _ => .ok since) fun _ => Ensures.step fun replacement => ?_
  refine Ensures.step fun overwritten => Ensures.step fun released => ?_
  -- the string of NULL is read
  exact .error

theorem testPatch (since : base.Since heap right) :
    Ensures (heap.testPatch fuel object patch path caseSensitive) fun result => base.Since result.2 right :=
  Ensures.step fun _ => Ensures.step fun _ => Ensures.step fun _ => since.compareJson.bind fun _ since => .ok since

end Since

/-- A patch that asks for one of these operations, at the root or below it, makes no
unlawful release unless it endangers something that is borrowed. -/
theorem Asked.since {pointer : Bytes} {operation : PatchOperation}
    (asked : heap.Asked fuel patch caseSensitive path pointer operation)
    (known : operation = .remove ∨ operation = .add ∨ operation = .replace ∨ operation = .move ∨ operation = .copy) :
    Ensures (if AtRoot pointer operation then heap.overwriteRoot fuel object patch operation caseSensitive
      else heap.applyAtPath fuel object patch path pointer operation caseSensitive) fun result =>
        heap.Since result.2 (¬ heap.Endangers fuel object patch caseSensitive) := by
  have start := Since.refl heap (¬ heap.Endangers fuel object patch caseSensitive)
  refine Ensures.ite (fun atRoot => ?_) fun below => ?_
  · rcases object with _ | root
    · exact start.overwriteRoot_null operation
    apply start.overwriteRoot
    · rintro safe rfl borrows
      exact safe (.removesRoot asked atRoot.1 rfl borrows)
    · intro safe keeps source copy after valueFound copied borrows
      have puts : operation = .add ∨ operation = .replace := by
        rcases known with remove | add | replace | move | copy
        · exact absurd remove keeps
        · exact .inl add
        · exact .inr replace
        · exact absurd move atRoot.2.1
        · exact absurd copy atRoot.2.2
      exact safe (.replacesRoot asked atRoot.1 puts rfl valueFound copied borrows)
  · apply start.applyAtPath known
    · intro safe deletes item parent after detached lent
      have notEmpty : first pointer ≠ 0 := by
        intro empty
        rcases deletes with rfl | rfl <;> exact below ⟨empty, by decide, by decide⟩
      exact safe (.deletesLent asked notEmpty deletes detached lent)
    · intro safe current lender value brings
      exact ⟨fun noPlace lent => safe (.dropsLent asked below brings lent noPlace),
        fun supplants => safe (.supplantsLent asked below brings supplants)⟩

/-- Unless a patch endangers something, all that it gives back is owned by the node it
hangs on. -/
theorem applyPatch_since (heap : Heap) (object patch : Pointer) (caseSensitive : Bool) :
    Ensures (heap.applyPatch fuel object patch caseSensitive) fun result =>
      heap.Since result.2 (¬ heap.Endangers fuel object patch caseSensitive) := by
  have start := Since.refl heap (¬ heap.Endangers fuel object patch caseSensitive)
  refine Ensures.follow fun path found => Ensures.follow fun isString string => ?_
  refine Ensures.ite (fun _ => .ok start) fun stringly => Ensures.follow fun operation decoded => ?_
  rw [Bool.not_eq_true', Bool.not_eq_false] at stringly
  subst stringly
  cases operation
  case invalid => exact .ok start
  case test => exact start.testPatch
  all_goals
    refine Ensures.follow fun fields read => ?_
    rcases stored : fields.valuestring with _ | pointer
    · exact .error
    have asked : heap.Asked fuel patch caseSensitive path pointer _ := ⟨found, string, decoded, fields, read, stored⟩
    exact asked.since (by decide)

/-! ## What is wrong is found -/

theorem dropValue_spoils (status : Nat) (lent : heap.Lent lender value) :
    Ensures (heap.dropValue fuel status lender value) fun result => ¬ result.2.Honest :=
  ((Since.refl _ False).cjsonDelete value).bind fun _ since => .ok (Since.not_honest since lent.not_honest)

/-- What is lent and finds no room is dropped. -/
theorem NoRoom.spoils {parent : Pointer} {name : Bytes} (noRoom : heap.NoRoom parent name)
    (lent : heap.Lent lender value) :
    Ensures (heap.addToParent fuel parent name lender value caseSensitive) fun result => ¬ result.2.Honest := by
  rw [addToParent]
  cases noRoom with
  | nothing => exact dropValue_spoils 9 lent
  | noIndex array notDash decoded =>
      rw [Option.isNone_some, if_neg Bool.false_ne_true, array, Except.ok_bind, if_pos rfl, if_neg notDash, decoded]
      exact dropValue_spoils 11 lent
  | pastEnd array notDash decoded list ended past =>
      rw [Option.isNone_some, if_neg Bool.false_ne_true, array, Except.ok_bind, if_pos rfl, if_neg notDash, decoded]
      dsimp only
      rw [insertItemInArray_past list ended past, Except.ok_bind]
      exact dropValue_spoils 10 lent
  | noContainer notArray notObject =>
      rw [Option.isNone_some, if_neg Bool.false_ne_true, notArray, Except.ok_bind, if_neg Bool.false_ne_true,
        notObject, Except.ok_bind, if_neg Bool.false_ne_true]
      exact dropValue_spoils 9 lent

/-- A borrowed member that makes way is deleted. -/
theorem Supplants.spoils {parent : Pointer} {name : Bytes}
    (supplants : heap.Supplants fuel parent name caseSensitive) :
    Ensures (heap.addToParent fuel parent name lender value caseSensitive) fun result => ¬ result.2.Honest := by
  rcases supplants with ⟨array, there, detached, lent⟩
  rcases lent with ⟨parent, item, rfl, rfl, reference⟩
  rw [addToParent, Option.isNone_some, if_neg Bool.false_ne_true, array, Except.ok_bind, if_neg Bool.false_ne_true,
    there, Except.ok_bind, if_pos rfl, cjsonDeleteItemFromObject, detached, Except.ok_bind]
  apply ((Since.refl _ False).cjsonDelete _).bind
  intro heap since
  have spoiled : ¬ heap.Honest := Since.not_honest since (Lent.not_honest ⟨parent, item, rfl, rfl, reference⟩)
  exact ((Since.refl heap False).addItemToObject _ _).bind fun _ since => .ok (Since.not_honest since spoiled)

/-- Adding goes on at the parent. -/
theorem Targets.addToPath_eq {parent : Pointer} {name : Bytes} {later : Heap}
    (targets : heap.Targets fuel object path caseSensitive parent name later) :
    heap.addToPath fuel object path lender value caseSensitive =
      later.addToParent fuel parent name lender value caseSensitive := by
  rcases targets with ⟨copy, parentPointer, childPointer, ⟨fields, read, copied⟩, split, walked, rfl⟩
  rw [addToPath, read, Except.ok_bind, copied, Except.ok_bind]
  dsimp only
  rw [split]
  dsimp only
  rw [walked, Except.ok_bind]

/-- What is lent and finds no place is dropped. -/
theorem NoPlace.spoils (noPlace : heap.NoPlace fuel object path caseSensitive) (lent : heap.Lent lender value) :
    Ensures (heap.addToPath fuel object path lender value caseSensitive) fun result => ¬ result.2.Honest := by
  cases noPlace with
  | refused copied =>
      rcases copied with ⟨fields, read, copied⟩
      have same := (utilsStrdup_fieldsOf heap fields.valuestring).elim copied
      rw [addToPath, read, Except.ok_bind, copied, Except.ok_bind]
      exact dropValue_spoils 9 ((lent_congr same).mpr lent)
  | unsplit copied split =>
      rcases copied with ⟨fields, read, copied⟩
      have same := (utilsStrdup_fieldsOf heap fields.valuestring).elim copied
      rw [addToPath, read, Except.ok_bind, copied, Except.ok_bind]
      dsimp only
      rw [split]
      exact Ensures.step fun _ => dropValue_spoils 9 ((lent_congr same).mpr lent)
  | leads targets noRoom =>
      rw [targets.addToPath_eq]
      exact noRoom.spoils ((lent_congr targets.fieldsOf).mpr lent)

theorem SupplantsAt.spoils (supplants : heap.SupplantsAt fuel object path caseSensitive) :
    Ensures (heap.addToPath fuel object path lender value caseSensitive) fun result => ¬ result.2.Honest := by
  rcases supplants with ⟨parent, name, later, targets, member⟩
  rw [targets.addToPath_eq]
  exact member.spoils

/-- A value that is brought is what `apply_patch` goes on to add. -/
theorem Brings.applyAtPath_eq {pointer : Bytes} {operation : PatchOperation} {current : Heap} {value : Addr}
    (brings : heap.Brings fuel object patch pointer caseSensitive operation current lender value) :
    heap.applyAtPath fuel object patch path pointer operation caseSensitive =
      current.addToPath fuel object path lender (some value) caseSensitive := by
  have copies : ∀ {heap current : Heap} {source : Pointer},
      heap.getObjectItem fuel patch (some valueName) caseSensitive = .ok source ->
      heap.cjsonDuplicate fuel source true = .ok (some value, current) ->
      heap.addValue fuel object patch path caseSensitive =
        current.addToPath fuel object path none (some value) caseSensitive := by
    intro heap current source found copied
    rw [addValue, found, Except.ok_bind]
    rw [if_neg (fun missing => cjsonDuplicate_none (Option.isNone_iff_eq_none.mp missing ▸ copied)), copied,
      Except.ok_bind]
    exact if_neg Bool.false_ne_true
  cases brings with
  | add found copied =>
      rw [applyAtPath, if_neg (by decide), if_neg (by decide)]
      exact copies found copied
  | replace detached there deleted found copied =>
      rw [applyAtPath, if_pos (by decide), detached, Except.ok_bind]
      dsimp only
      rw [if_neg (by simpa [Option.isSome_iff_ne_none] using there), deleted, Except.ok_bind, if_neg (by decide)]
      exact copies found copied
  | move found isString read detached =>
      rw [applyAtPath, if_neg (by decide), if_pos (by decide), transferValue, found, Except.ok_bind, isString,
        Except.ok_bind, if_neg (by decide), read, Except.ok_bind, if_pos rfl, detached, Except.ok_bind]
      exact if_neg Bool.false_ne_true
  | copy found isString read walked there copied =>
      rw [applyAtPath, if_neg (by decide), if_pos (by decide), transferValue, found, Except.ok_bind, isString,
        Except.ok_bind, if_neg (by decide), read, Except.ok_bind, if_neg (by decide), walked, Except.ok_bind,
        if_neg (by simpa [Option.isSome_iff_ne_none] using there), copied, Except.ok_bind]
      exact if_neg Bool.false_ne_true

/-- A patch that asks for one of these operations goes on at the root or below it.
The checks in front of that have read the patch and changed nothing. -/
theorem Asked.applyPatch_eq {pointer : Bytes} {operation : PatchOperation}
    (asked : heap.Asked fuel patch caseSensitive path pointer operation) (known : operation ≠ .invalid)
    (changes : operation ≠ .test) :
    heap.applyPatch fuel object patch caseSensitive =
      if AtRoot pointer operation then heap.overwriteRoot fuel object patch operation caseSensitive
      else heap.applyAtPath fuel object patch path pointer operation caseSensitive := by
  rcases asked with ⟨found, string, decoded, fields, read, stored⟩
  rw [applyPatch, found, Except.ok_bind, string, Except.ok_bind, if_neg (by decide), decoded, Except.ok_bind]
  split
  · exact absurd rfl known
  · exact absurd rfl changes
  · rw [read, Except.ok_bind, stored]
    rfl

/-- One wrong release spoils the record. -/
theorem record_not_honest {releases : List Release} {release : Release} (member : release ∈ releases)
    (wrong : ¬ release.Lawful) : ¬ (heap.record releases).Honest :=
  fun honest => wrong (honest release (List.mem_append_right _ member))

/-- Overwriting a root that borrows something. -/
theorem Borrows.spoils (borrows : heap.Borrows root) (replacement : Contents) :
    Ensures (heap.overwriteItem fuel (some root) replacement) fun after => ¬ after.Honest := by
  refine Ensures.ite (fun impossible => absurd impossible Bool.false_ne_true) fun _ => ?_
  apply fields_ensures.bind
  rintro _ rfl
  apply child_ensures.bind
  rintro _ rfl
  have emptied : ∀ heap : Heap, ¬ heap.Honest -> Ensures (do
      let heap ← heap.setNext (some root) replacement.next
      let heap ← heap.setPrev (some root) replacement.prev
      let heap ← heap.setChild (some root) replacement.child
      heap.setFields (some root) fun _ => replacement.fields) fun after => ¬ after.Honest := by
    intro heap spoiled
    apply ((Since.refl heap False).setNext _ _).bind
    intro heap since
    apply (Since.setPrev since _ _).bind
    intro heap since
    apply (Since.setChild since _ _).bind
    intro heap since
    exact (Since.setFields since _ _).mono fun _ since => Since.not_honest since spoiled
  have texts : ¬ (heap.record (overwrittenTexts (heap.fieldsOf root))).Honest ∨
      (heap.fieldsOf root).type_.isReference = true ∧ (heap.childOf root).isSome = true := by
    rcases borrows with ⟨constant, named⟩ | ⟨reference, text | list⟩
    · refine .inl (record_not_honest (List.mem_append_left _
        (by rw [if_pos named]; exact List.mem_singleton_self _)) ?_)
      rw [Release.Lawful, constant]
      exact Bool.false_ne_true.symm
    · refine .inl (record_not_honest (List.mem_append_right _
        (by rw [if_pos text]; exact List.mem_singleton_self _)) ?_)
      rw [Release.Lawful, reference]
      exact Bool.false_ne_true.symm
    · exact .inr ⟨reference, list⟩
  refine Ensures.iteBind (fun there => ?_) (fun missing => .ok ?_) emptied
  · have spoiled : ¬ ((heap.record (overwrittenTexts (heap.fieldsOf root))).record
        [.child (heap.fieldsOf root).type_]).Honest := by
      rcases texts with texts | ⟨reference, _⟩
      · exact Since.not_honest ((Since.refl _ False).record fun impossible => impossible.elim) texts
      · apply record_not_honest (List.mem_singleton_self _)
        rw [Release.Lawful, reference]
        exact Bool.false_ne_true.symm
    exact ((Since.refl _ False).cjsonDelete _).mono fun _ since => Since.not_honest since spoiled
  · exact texts.resolve_right fun list => missing list.2

/-- Overwriting the root by nothing, or by a copy that is made.  A root that borrows
its contents, or has a constant name, loses them to the hook, and so does a copy whose
name is a constant. -/
theorem overwriteRoot_spoils {operation : PatchOperation}
    (wrong : operation = .remove ∧ heap.Borrows root ∨ operation ≠ .remove ∧ ∃ source copy after,
      heap.getObjectItem fuel patch (some valueName) caseSensitive = .ok source ∧
      heap.cjsonDuplicate fuel source true = .ok (some copy, after) ∧
        (after.Borrows root ∨ after.NamedConstant copy)) :
    Ensures (heap.overwriteRoot fuel (some root) patch operation caseSensitive) fun result => ¬ result.2.Honest := by
  rcases wrong with ⟨remove, borrows⟩ | ⟨keeps, source, copy, after, found, copied, wrong⟩
  · rw [overwriteRoot, if_pos remove]
    exact (borrows.spoils _).bind fun _ spoiled => .ok spoiled
  rw [overwriteRoot, if_neg keeps, found, Except.ok_bind,
    if_neg (fun missing => cjsonDuplicate_none (Option.isNone_iff_eq_none.mp missing ▸ copied)),
    copied, Except.ok_bind]
  refine Ensures.ite (fun impossible => absurd impossible Bool.false_ne_true) fun _ => ?_
  apply (readNode_fields after copy).bind
  intro replacement same
  refine Ensures.follow fun overwritten ran => ?_
  have flags := ((Since.refl after False).overwriteItem replacement False.elim).elim ran
  apply (release_fieldsOf overwritten (some copy)).bind
  rintro heap ⟨released, kept⟩
  apply fields_ensures.bind
  rintro _ rfl
  rw [kept, flags.2, same]
  refine ((Since.refl _ False).setFields _ _).bind fun _ since => .ok (Since.not_honest since ?_)
  rcases wrong with borrows | ⟨constant, named⟩
  · have spoiled : ¬ heap.Honest :=
      Since.not_honest ((Since.refl overwritten False).congr released) ((borrows.spoils replacement).elim ran)
    exact Since.not_honest ((Since.refl heap False).record fun impossible => impossible.elim) spoiled
  · rw [if_pos named]
    apply record_not_honest (List.mem_singleton_self _)
    rw [Release.Lawful, constant]
    exact Bool.false_ne_true.symm

/-- A patch that goes on at the root. -/
theorem Asked.atRoot {pointer : Bytes} {operation : PatchOperation}
    (asked : heap.Asked fuel patch caseSensitive path pointer operation) (empty : first pointer = 0)
    (overwrites : operation = .remove ∨ operation = .add ∨ operation = .replace) :
    heap.applyPatch fuel object patch caseSensitive =
      heap.overwriteRoot fuel object patch operation caseSensitive := by
  rcases overwrites with rfl | rfl | rfl <;>
    rw [asked.applyPatch_eq (by decide) (by decide), if_pos ⟨empty, by decide, by decide⟩]

/-- A patch that goes on below the root. -/
theorem Asked.belowRoot {pointer : Bytes} {operation : PatchOperation}
    (asked : heap.Asked fuel patch caseSensitive path pointer operation) (below : ¬ AtRoot pointer operation)
    (known : operation ≠ .invalid ∧ operation ≠ .test) :
    heap.applyPatch fuel object patch caseSensitive =
      heap.applyAtPath fuel object patch path pointer operation caseSensitive := by
  rw [asked.applyPatch_eq known.1 known.2, if_neg below]

/-- Only these operations bring a value. -/
theorem Brings.known {pointer : Bytes} {operation : PatchOperation} {current : Heap} {value : Addr}
    (brings : heap.Brings fuel object patch pointer caseSensitive operation current lender value) :
    operation ≠ .invalid ∧ operation ≠ .test := by
  cases brings <;> decide

/-- A child of a reference that is detached for good is deleted, and the record shows
that it was borrowed. -/
theorem applyAtPath_spoils {pointer : Bytes} {operation : PatchOperation} {item parent : Pointer}
    (deletes : operation = .remove ∨ operation = .replace)
    (detached : heap.detachPath fuel object (some pointer) caseSensitive = .ok (item, parent, after))
    (lent : after.Lent parent item) :
    Ensures (heap.applyAtPath fuel object patch path pointer operation caseSensitive) fun result =>
      ¬ result.2.Honest := by
  have spoiled := lent.not_honest
  rcases lent with ⟨lender, node, rfl, rfl, _⟩
  rw [applyAtPath, if_pos deletes, detached, Except.ok_bind]
  dsimp only
  rw [Option.isNone_some, if_neg Bool.false_ne_true]
  apply ((Since.refl _ False).cjsonDelete _).bind
  intro cleared since
  have still : ¬ cleared.Honest := Since.not_honest since spoiled
  refine Ensures.ite (fun _ => .ok still) fun _ => ?_
  exact ((Since.refl cleared False).addValue False.elim).mono fun _ since => Since.not_honest since still

/-- Whatever a patch endangers it gives back. -/
theorem Endangers.spoils (endangers : heap.Endangers fuel object patch caseSensitive) :
    Ensures (heap.applyPatch fuel object patch caseSensitive) fun result => ¬ result.2.Honest := by
  cases endangers with
  | removesRoot asked empty there borrows =>
      subst there
      rw [asked.atRoot empty (.inl rfl)]
      exact overwriteRoot_spoils (.inl ⟨rfl, borrows⟩)
  | replacesRoot asked empty puts there found copied borrows =>
      subst there
      rw [asked.atRoot empty (.inr puts)]
      apply overwriteRoot_spoils
      refine .inr ⟨?_, _, _, _, found, copied, borrows⟩
      rcases puts with rfl | rfl <;> decide
  | deletesLent asked below deletes detached lent =>
      rw [asked.belowRoot fun atRoot => below atRoot.1]
      · exact applyAtPath_spoils deletes detached lent
      · rcases deletes with rfl | rfl <;> exact ⟨by decide, by decide⟩
  | supplantsLent asked below brings supplants =>
      rw [asked.belowRoot below brings.known, brings.applyAtPath_eq]
      exact supplants.spoils
  | dropsLent asked below brings lent noPlace =>
      rw [asked.belowRoot below brings.known, brings.applyAtPath_eq]
      exact noPlace.spoils lent

/-- One patch: everything that has been given back is owned by the node it hangs on if
that was so before and the patch endangers nothing. -/
theorem applyPatch_honest_iff {status : Nat}
    (ran : heap.applyPatch fuel object patch caseSensitive = .ok (status, after)) :
    after.Honest ↔ heap.Honest ∧ ¬ heap.Endangers fuel object patch caseSensitive := by
  have since := (applyPatch_since heap object patch caseSensitive).elim ran
  constructor
  · intro honest
    refine ⟨?_, fun endangers => endangers.spoils.elim ran honest⟩
    by_contra dishonest
    exact since.not_honest dishonest honest
  · rintro ⟨honest, safe⟩
    exact (since.honest_iff safe).mpr honest

end Heap

/-! ## Runs -/

/-- What there is between two patches: the budget of the loop, the memory and the
patch that comes next. -/
structure Applying where
  fuel : Nat
  heap : Heap
  patch : Pointer

namespace Applying

variable {object : Pointer} {caseSensitive : Bool} {start state next : Applying}

/-- One turn of the loop.  A patch that succeeds is followed by the next one in its
list, as the list is behind the patch; a patch that fails is the last one. -/
inductive Step (object : Pointer) (caseSensitive : Bool) : Applying -> Applying -> Prop where
  | goes {fuel : Nat} {heap after : Heap} {patch : Addr} {next : Pointer}
      (ran : heap.applyPatch (fuel + 1) object (some patch) caseSensitive = .ok (0, after))
      (follows : after.next (some patch) = .ok next) :
      Step object caseSensitive ⟨fuel + 1, heap, some patch⟩ ⟨fuel, after, next⟩
  | fails {fuel status : Nat} {heap after : Heap} {patch : Addr}
      (ran : heap.applyPatch (fuel + 1) object (some patch) caseSensitive = .ok (status, after))
      (failed : status ≠ 0) :
      Step object caseSensitive ⟨fuel + 1, heap, some patch⟩ ⟨fuel, after, none⟩

/-- The turns of the loop, one after the other. -/
abbrev Run (object : Pointer) (caseSensitive : Bool) : Applying -> Applying -> Prop :=
  Relation.ReflTransGen (Step object caseSensitive)

/-- The next patch endangers something, in the memory as it finds it. -/
def Endangered (object : Pointer) (caseSensitive : Bool) (state : Applying) : Prop :=
  state.patch.isSome = true ∧ state.heap.Endangers state.fuel object state.patch caseSensitive

/-- Every release of the run so far was lawful. -/
def Lawful (state : Applying) : Prop := state.heap.Honest

/-- One turn. -/
theorem Step.lawful_iff (step : Step object caseSensitive state next) :
    next.Lawful ↔ state.Lawful ∧ ¬ state.Endangered object caseSensitive := by
  cases step with
  | goes ran follows =>
      rw [Endangered, Option.isSome_some, eq_self, true_and]
      exact Heap.applyPatch_honest_iff ran
  | fails ran failed =>
      rw [Endangered, Option.isSome_some, eq_self, true_and]
      exact Heap.applyPatch_honest_iff ran

/-- No turn of a run endangers anything.  Only the turns that lead up to `state` are
asked, and of each only what it finds. -/
def NeverEndangered (object : Pointer) (caseSensitive : Bool) (start state : Applying) : Prop :=
  ∀ middle next, Run object caseSensitive start middle -> Step object caseSensitive middle next ->
    Run object caseSensitive next state -> ¬ middle.Endangered object caseSensitive

/-- A whole run. -/
theorem Run.lawful_iff (run : Run object caseSensitive start state) (clean : start.Lawful) :
    state.Lawful ↔ NeverEndangered object caseSensitive start state := by
  constructor
  · intro lawful middle next _ step later
    have back : ∀ {first last : Applying}, Run object caseSensitive first last -> last.Lawful -> first.Lawful := by
      intro first last run lawful
      induction run with
      | refl => exact lawful
      | tail _ step ih => exact ih (step.lawful_iff.mp lawful).1
    exact (step.lawful_iff.mp (back later lawful)).2
  · intro right
    induction run with
    | refl => exact clean
    | tail before step ih =>
        apply step.lawful_iff.mpr
        refine ⟨ih fun middle next from_ here later => right middle next from_ here (later.tail step), ?_⟩
        exact right _ _ before step .refl

/-- The loop is such a run. -/
theorem loop_run {fuel status : Nat} {heap after : Heap} {patch : Pointer}
    (ran : heap.applyPatchesLoop object caseSensitive fuel patch = .ok (status, after)) :
    ∃ left, Run object caseSensitive ⟨fuel, heap, patch⟩ ⟨left, after, none⟩ := by
  induction fuel generalizing heap patch with
  | zero => cases ran
  | succ fuel ih =>
      rcases patch with _ | patch
      · cases ran
        exact ⟨fuel + 1, .refl⟩
      rw [Heap.applyPatchesLoop, Option.isNone_some, if_neg Bool.false_ne_true] at ran
      rcases Except.bind_eq_ok.mp ran with ⟨⟨outcome, middle⟩, ranFirst, ranRest⟩
      dsimp only at ranRest
      by_cases failed : outcome ≠ 0
      · rw [if_pos failed] at ranRest
        cases ranRest
        exact ⟨fuel, .single (.fails ranFirst failed)⟩
      · rw [if_neg failed] at ranRest
        rcases Except.bind_eq_ok.mp ranRest with ⟨next, follows, ranLoop⟩
        rcases ih ranLoop with ⟨left, run⟩
        rw [not_not.mp failed] at ranFirst
        exact ⟨left, .head (.goes ranFirst follows) run⟩

end Applying

/-- `cJSONUtils_ApplyPatches` gives back nothing but what is owned by the node it hangs on,
up to any point of a run and at its end, if and only if no patch up to there endangers
something that is not.  The memory is any, and the hooks may refuse at any time. -/
theorem applyPatches_lawful_iff {fuel : Nat} {heap : Heap} {object patches first : Pointer} {caseSensitive : Bool}
    (clean : heap.Honest) (isArray : heap.hasBase patches .array = .ok true)
    (list : heap.child patches = .ok first) :
    (∀ state, Applying.Run object caseSensitive ⟨fuel, heap, first⟩ state ->
      (state.Lawful ↔ Applying.NeverEndangered object caseSensitive ⟨fuel, heap, first⟩ state)) ∧
    ∀ status after, heap.cjsonUtilsApplyPatches fuel object patches caseSensitive = .ok (status, after) ->
      ∃ left, Applying.Run object caseSensitive ⟨fuel, heap, first⟩ ⟨left, after, none⟩ ∧
        (after.Honest ↔ Applying.NeverEndangered object caseSensitive ⟨fuel, heap, first⟩ ⟨left, after, none⟩) := by
  refine ⟨fun state run => run.lawful_iff clean, fun status after ran => ?_⟩
  rw [Heap.cjsonUtilsApplyPatches, isArray, Except.ok_bind, if_neg (by decide), list, Except.ok_bind] at ran
  rcases Applying.loop_run ran with ⟨left, run⟩
  exact ⟨left, run, run.lawful_iff clean⟩

/-- A document of base `base` that is a reference, at 0, and the patches
`[{"op": "remove", "path": path}]`, at 1.  Its string value is `x`, and its children are
those of the array at 5. -/
def borrower (base : BaseType) (path : Bytes) : Heap where
  allocated node := node < 7
  unused := 7
  links := {
    next := fun node => match node with
      | 3 => some 4
      | _ => none
    prev := fun node => match node with
      | 2 => some 2
      | 3 => some 4
      | 4 => some 3
      | 6 => some 6
      | _ => none }
  childOf node := match node with
    | 0 => if base = .array then some 6 else none
    | 1 => some 2
    | 2 => some 3
    | 5 => some 6
    | _ => none
  fieldsOf node := match node with
    | 0 => {
        type_ := { base := base, isReference := true }
        valuestring := if base = .string then some [120, 0] else none }
    | 1 | 5 => { type_ := { base := .array } }
    | 2 => { type_ := { base := .object } }
    | 3 => { type_ := { base := .string }, valuestring := some (removeText ++ [0]), string := some (opName ++ [0]) }
    | 4 => { type_ := { base := .string }, valuestring := some (path ++ [0]), string := some (pathName ++ [0]) }
    | _ => { type_ := { base := .null } }
  hooks := ⟨fun _ _ => true, true⟩

/-- The path `/0` below a reference. -/
theorem applyPatches_lawful_iff_removeLent : ∃ after,
    (borrower .array [47, 48]).cjsonUtilsApplyPatches 8 (some 0) (some 1) true = .ok (0, after) ∧ ¬ after.Honest ∧
      ∃ left, Applying.Run (some 0) true ⟨8, borrower .array [47, 48], some 2⟩ ⟨left, after, none⟩ ∧
        (after.Honest ↔
          Applying.NeverEndangered (some 0) true ⟨8, borrower .array [47, 48], some 2⟩ ⟨left, after, none⟩) := by
  have clean : (borrower .array [47, 48]).Honest := fun _ impossible => absurd impossible List.not_mem_nil
  have runs := (@applyPatches_lawful_iff 8 _ (some 0) (some 1) _ true clean rfl rfl).2
  refine ⟨_, rfl, ?_, runs 0 _ rfl⟩
  exact fun honest => Bool.false_ne_true (honest _ (List.mem_singleton_self _)).symm

/-- Removing the root frees the string that a reference borrows: a state in which
every release was lawful is followed by one in which the last one was not. -/
theorem remove_root_frees_borrowed_string : ¬ ∀ (fuel : Nat) (heap : Heap) (object patches : Pointer)
    (caseSensitive : Bool) (status : Nat) (after : Heap),
    heap.cjsonUtilsApplyPatches fuel object patches caseSensitive = .ok (status, after) ->
      heap.Honest -> after.Honest := by
  intro all
  have lawful := all 8 (borrower .string []) (some 0) (some 1) true 0 _ rfl
    fun _ impossible => absurd impossible List.not_mem_nil
  exact Bool.false_ne_true (lawful _ (List.mem_singleton_self _)).symm

end CJson
