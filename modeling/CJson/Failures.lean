import CJson.Rearranged
import CJson.Rewrites

/-!
# What a failed patch leaves behind

An operation that fails has usually not touched the document yet, or has only sorted
it.  Two kinds of failures come too late: a replacement whose old value is gone, and a
move whose source is.
-/

namespace CJson

open CString Item

/-! ## The comparison of a test -/

section Tidy

variable {caseSensitive : Bool}

theorem Item.DistinctKeysIn.at? {document node : Item} {place : Item.Path}
    (distinct : document.DistinctKeysIn caseSensitive) (found : document.at? place = some node) :
    node.DistinctKeysIn caseSensitive := by
  induction place generalizing document with
  | nil =>
      cases found
      exact distinct
  | cons position place ih =>
      cases child : document.child[position]? with
      | none => simp [Item.at?, child] at found
      | some next =>
          simp only [Item.at?, child] at found
          exact ih (distinct.child (List.mem_of_getElem? child)) found

theorem tidied_set {children : List Item} {next new : Item} {position : Nat}
    (distinct : ∀ child ∈ children, child.DistinctKeysIn caseSensitive)
    (there : children[position]? = some next) (tidy : Tidied caseSensitive next new) :
    List.Forall₂ (Tidied caseSensitive) children (children.set position new) := by
  induction children generalizing position with
  | nil => cases there
  | cons head rest ih =>
      have restDistinct : ∀ child ∈ rest, child.DistinctKeysIn caseSensitive :=
        fun child member => distinct child (List.mem_cons_of_mem _ member)
      cases position with
      | zero =>
          cases there
          exact .cons tidy (tidied_refl restDistinct)
      | succ position =>
          rw [List.getElem?_cons_succ] at there
          exact .cons (.refl (distinct head List.mem_cons_self)) (ih restDistinct there)

/-- A document in which one node has been sorted in places is that document sorted in
places. -/
theorem tidied_modify {document node new changed : Item} {place : Item.Path}
    (distinct : document.DistinctKeysIn caseSensitive) (found : document.at? place = some node)
    (tidy : Tidied caseSensitive node new)
    (modified : document.modify (fun _ => some new) place = some changed) :
    Tidied caseSensitive document changed := by
  induction place generalizing document changed with
  | nil =>
      cases found
      cases modified
      exact tidy
  | cons position place ih =>
      cases child : document.child[position]? with
      | none => simp [Item.at?, child] at found
      | some next =>
          simp only [Item.at?, child] at found
          simp only [Item.modify, child] at modified
          rcases Option.map_eq_some_iff.mp modified with ⟨below, belowModified, rfl⟩
          exact .withChildren (tidied_set (fun _ => distinct.child) child
            (ih (distinct.child (List.mem_of_getElem? child)) found belowModified)) distinct

end Tidy

/-! ## Detaching and adding -/

/-- A document without the node at a place and what is below it: the list of its
parent closes up, and no other list or node changes.  The fields of the parent stay,
and its `head.prev` is whatever detaching has made of it. -/
def LosesExactly (document : Item) (place : Item.Path) (item rest : Item) : Prop :=
  ∃ parentPath position parent headPrev, place = parentPath ++ [position] ∧
    document.at? parentPath = some parent ∧ parent.child[position]? = some item ∧
    document.modify (fun _ => some (parent.withChildren (parent.child.eraseIdx position) headPrev))
      parentPath = some rest

section Paths

variable {document item rest : Item} {path : Bytes} {place : Item.Path} {caseSensitive : Bool}

/-- What `detach_path` has found on its way: how it has split the path, the parent
that the front leads to, which child the last token stands for, and what is left of
parent and document without it. -/
structure Detaches (document : Item) (path : Bytes) (place : Item.Path) (item rest : Item)
    (caseSensitive : Bool) (parentPointer childPointer : Bytes) (parentPath : Item.Path)
    (parent remaining : Item) (position : Nat) : Prop where
  split : splitPointer (cjsonUtilsStrdup path) = some (parentPointer, childPointer)
  walked : getItemFromPointer document parentPointer caseSensitive = some parentPath
  at? : document.at? parentPath = some parent
  token : parent.isArray = true ∧
      decodeArrayIndexFromPointer (decodePointerInplace childPointer) = some position ∨
    parent.isArray = false ∧ parent.isObject = true
  removed : cjsonDetachItemViaPointer parent position = some (item, remaining)
  modified : document.modify (fun _ => some remaining) parentPath = some rest
  place : place = parentPath ++ [position]

theorem detachPath_eq_some (detached : detachPath document path caseSensitive = some (place, item, rest)) :
    ∃ parentPointer childPointer parentPath parent remaining position,
      Detaches document path place item rest caseSensitive parentPointer childPointer parentPath parent
        remaining position := by
  rw [detachPath] at detached
  cases split : splitPointer (cjsonUtilsStrdup path) with
  | none => simp [split] at detached
  | some pointers =>
      rcases pointers with ⟨parentPointer, childPointer⟩
      simp only [split] at detached
      cases walked : getItemFromPointer document parentPointer caseSensitive with
      | none => simp [walked] at detached
      | some parentPath =>
          simp only [walked] at detached
          cases there : document.at? parentPath with
          | none => simp [there] at detached
          | some parent =>
              simp only [there] at detached
              refine ⟨parentPointer, childPointer, parentPath, parent, ?_⟩
              cases array : parent.isArray with
              | true =>
                  rw [if_pos array] at detached
                  cases decoded : decodeArrayIndexFromPointer (decodePointerInplace childPointer) with
                  | none => simp [decoded] at detached
                  | some index =>
                      simp only [decoded, detachItemFromArray] at detached
                      cases removed : cjsonDetachItemViaPointer parent index with
                      | none => simp [removed] at detached
                      | some both =>
                          simp only [removed, Option.map_some] at detached
                          rcases Option.map_eq_some_iff.mp detached with ⟨changed, modified, same⟩
                          cases same
                          exact ⟨both.2, index, split, walked, there, Or.inl ⟨array, decoded⟩, removed, modified,
                            rfl⟩
              | false =>
                  rw [array, if_neg Bool.false_ne_true] at detached
                  cases object : parent.isObject with
                  | false => simp [object] at detached
                  | true =>
                      rw [if_pos object] at detached
                      rw [cjsonDetachItemFromObject] at detached
                      cases found : cjsonGetObjectItem parent (decodePointerInplace childPointer) with
                      | none => simp [found] at detached
                      | some position =>
                          simp only [found] at detached
                          cases removed : cjsonDetachItemViaPointer parent position with
                          | none => simp [removed] at detached
                          | some both =>
                              simp only [removed, Option.map_some] at detached
                              rcases Option.map_eq_some_iff.mp detached with ⟨changed, modified, same⟩
                              cases same
                              exact ⟨both.2, position, split, walked, there, Or.inr ⟨array, object⟩, removed,
                                modified, rfl⟩

theorem cjsonDetachItemViaPointer_eq {parent item remaining : Item} {position : Nat}
    (removed : cjsonDetachItemViaPointer parent position = some (item, remaining)) :
    parent.child[position]? = some item ∧
      ∃ headPrev, remaining = parent.withChildren (parent.child.eraseIdx position) headPrev := by
  rw [cjsonDetachItemViaPointer] at removed
  cases there : parent.child[position]? with
  | none => simp [there] at removed
  | some child =>
      rw [there] at removed
      cases removed
      exact ⟨rfl, _, rfl⟩

theorem losesExactly_of_detachPath
    (detached : detachPath document path caseSensitive = some (place, item, rest)) :
    LosesExactly document place item rest := by
  rcases detachPath_eq_some detached with ⟨_, _, parentPath, parent, remaining, position, detaches⟩
  rcases cjsonDetachItemViaPointer_eq detaches.removed with ⟨there, headPrev, rfl⟩
  exact ⟨parentPath, position, parent, headPrev, detaches.place, detaches.at?, there, detaches.modified⟩

/-- The way to the parent, the parent, and the last token, decoded. -/
def lastStep (object : Item) (pointer : Bytes) (caseSensitive : Bool) : Option (Item.Path × Item × Bytes) :=
  (splitPointer (cjsonUtilsStrdup pointer)).bind fun pointers =>
    (getItemFromPointer object pointers.1 caseSensitive).bind fun parentPath =>
      (object.at? parentPath).map fun parent => (parentPath, parent, decodePointerInplace pointers.2)

/-- What `detach_path` does to the parent: the position, the child, and the parent
without it.  There is no answer if the token is no index of an array, if nothing has
that index or name, or if the parent is neither an array nor an object. -/
def detachChild (parent : Item) (childPointer : Bytes) : Option (Nat × Item × Item) :=
  if parent.isArray then
    match decodeArrayIndexFromPointer childPointer with
    | none => none
    | some index => detachItemFromArray parent index
  else if parent.isObject then cjsonDetachItemFromObject parent childPointer
  else none

/-- What `addToPath` does to the parent, and the status.  An array refuses a token
that is no index and an index behind its end, each with a status of its own; an object
refuses nothing. -/
def putChild (parent : Item) (childPointer : Bytes) (value : Item) (caseSensitive : Bool) : Option (Nat × Item) :=
  if parent.isArray then
    if compareBy id childPointer [45] = 0 then (addItemToArray parent value).map (0, ·)
    else
      match decodeArrayIndexFromPointer childPointer with
      | none => some (11, parent)
      | some index => (insertItemInArray parent index value).map fun inserted =>
          (if inserted.1 then 0 else 10, inserted.2)
  else if parent.isObject then
    (cjsonAddItemToObject (cjsonDeleteItemFromObject parent childPointer caseSensitive) childPointer value).map (0, ·)
  else some (9, parent)

theorem detachPath_eq (object : Item) (path : Bytes) (caseSensitive : Bool) :
    detachPath object path caseSensitive = (lastStep object path caseSensitive).bind fun step =>
      (detachChild step.2.1 step.2.2).bind fun taken =>
        (object.modify (fun _ => some taken.2.2) step.1).map fun rest => (step.1 ++ [taken.1], taken.2.1, rest) := by
  rw [detachPath, lastStep]
  cases splitPointer (cjsonUtilsStrdup path) with
  | none => rfl
  | some pointers =>
      rcases pointers with ⟨front, back⟩
      simp only [Option.bind_some]
      cases getItemFromPointer object front caseSensitive with
      | none => rfl
      | some parentPath =>
          simp only [Option.bind_some]
          cases object.at? parentPath with
          | none => rfl
          | some parent =>
              rw [Option.map_some, Option.bind_some]
              dsimp only
              split
              · rename_i taken
                rw [show detachChild parent (decodePointerInplace back) = none from taken]
                rfl
              · rename_i taken
                rw [show detachChild parent (decodePointerInplace back) = some _ from taken]
                rfl

theorem addToPath_eq (object value : Item) (path : Bytes) (caseSensitive : Bool) :
    addToPath object path value caseSensitive =
      match lastStep object path caseSensitive with
      | none => some (9, object)
      | some step => (putChild step.2.1 step.2.2 value caseSensitive).bind fun put =>
          (object.modify (fun _ => some put.2) step.1).map fun changed => (put.1, changed) := by
  rw [addToPath, lastStep]
  cases splitPointer (cjsonUtilsStrdup path) with
  | none => rfl
  | some pointers =>
      rcases pointers with ⟨front, back⟩
      simp only [Option.bind_some]
      cases getItemFromPointer object front caseSensitive with
      | none => rfl
      | some parentPath =>
          simp only [Option.bind_some]
          cases there : object.at? parentPath with
          | none => rfl
          | some parent =>
              have unchanged := Item.modify_self there
              simp only [Option.map_some, putChild]
              by_cases array : parent.isArray = true
              · rw [if_pos array, if_pos array]
                by_cases atEnd : compareBy id (decodePointerInplace back) [45] = 0
                · rw [if_pos atEnd, if_pos atEnd]
                  cases addItemToArray parent value with
                  | none => rfl
                  | some changed => exact Option.map_eq_bind.symm
                rw [if_neg atEnd, if_neg atEnd]
                cases decodeArrayIndexFromPointer (decodePointerInplace back) with
                | none =>
                    simp only [Option.bind_some, unchanged]
                    rfl
                | some index =>
                    simp only
                    cases insertItemInArray parent index value with
                    | none => rfl
                    | some inserted => exact Option.map_eq_bind.symm
              rw [if_neg array, if_neg array]
              by_cases isObject : parent.isObject = true
              · rw [if_pos isObject, if_pos isObject]
                cases cjsonAddItemToObject (cjsonDeleteItemFromObject parent (decodePointerInplace back)
                    caseSensitive) (decodePointerInplace back) value with
                | none => rfl
                | some changed => exact Option.map_eq_bind.symm
              · rw [if_neg isObject, if_neg isObject]
                simp only [Option.bind_some, unchanged]
                rfl

theorem lastStep_at? {parentPath : Item.Path} {parent : Item} {name : Bytes}
    (found : lastStep document path caseSensitive = some (parentPath, parent, name)) :
    document.at? parentPath = some parent := by
  rcases Option.bind_eq_some_iff.mp found with ⟨pointers, _, found⟩
  rcases Option.bind_eq_some_iff.mp found with ⟨place, _, found⟩
  rcases Option.map_eq_some_iff.mp found with ⟨node, there, same⟩
  cases same
  exact there

/-- The end of a patch has found no place, or has changed one node.  In the first case
the status is 9 and the document is as it was; in the second one the status is that of
`putChild` at the parent. -/
theorem addToPath_eq_some {value result : Item} {status : Nat}
    (ran : addToPath document path value caseSensitive = some (status, result)) :
    status = 9 ∧ result = document ∨
      ∃ parentPath parent name changed, document.at? parentPath = some parent ∧
        putChild parent name value caseSensitive = some (status, changed) ∧
        document.modify (fun _ => some changed) parentPath = some result := by
  rw [addToPath_eq] at ran
  cases found : lastStep document path caseSensitive with
  | none =>
      simp only [found] at ran
      cases ran
      exact Or.inl ⟨rfl, rfl⟩
  | some step =>
      rcases step with ⟨parentPath, parent, name⟩
      simp only [found] at ran
      rcases Option.bind_eq_some_iff.mp ran with ⟨⟨after, changed⟩, put, ran⟩
      rcases Option.map_eq_some_iff.mp ran with ⟨rest, modified, same⟩
      cases same
      exact Or.inr ⟨parentPath, parent, name, changed, lastStep_at? found, put, modified⟩

/-- A parent that does not take the value stays as it is. -/
theorem putChild_failed {parent value changed : Item} {name : Bytes} {status : Nat}
    (put : putChild parent name value caseSensitive = some (status, changed)) (failed : status ≠ 0) :
    changed = parent ∧ (status = 9 ∨ status = 10 ∨ status = 11) := by
  rw [putChild] at put
  split at put
  · split at put
    · rcases Option.map_eq_some_iff.mp put with ⟨_, _, same⟩
      cases same
      exact absurd rfl failed
    · split at put
      · cases put
        exact ⟨rfl, Or.inr (Or.inr rfl)⟩
      · rcases Option.map_eq_some_iff.mp put with ⟨⟨inserted, rest⟩, insertion, same⟩
        cases same
        cases inserted with
        | true => exact absurd rfl failed
        | false =>
            refine ⟨?_, Or.inr (Or.inl rfl)⟩
            rw [insertItemInArray] at insertion
            split at insertion
            · cases insertion
              rfl
            · split at insertion
              · rcases Option.map_eq_some_iff.mp insertion with ⟨_, _, impossible⟩
                cases impossible
              · cases insertion
  · split at put
    · rcases Option.map_eq_some_iff.mp put with ⟨_, _, same⟩
      cases same
      exact absurd rfl failed
    · cases put
      exact ⟨rfl, Or.inl rfl⟩

/-- A value that is not put in changes nothing. -/
theorem addToPath_failed {value result : Item} {status : Nat}
    (ran : addToPath document path value caseSensitive = some (status, result)) (failed : status ≠ 0) :
    result = document ∧ (status = 9 ∨ status = 10 ∨ status = 11) := by
  rcases addToPath_eq_some ran with ⟨noPlace, same⟩ | ⟨parentPath, parent, name, changed, there, put, modified⟩
  · exact ⟨same, Or.inl noPlace⟩
  · rcases putChild_failed put failed with ⟨unchanged, refused⟩
    rw [unchanged, Item.modify_self there] at modified
    cases modified
    exact ⟨rfl, refused⟩

theorem decodeArrayIndexFromPointer_dash {pointer : Bytes} (same : compareBy id pointer [45] = 0) :
    decodeArrayIndexFromPointer pointer = none := by
  have texts : text pointer = [45] := cstrCmp_eq_zero.mp same
  rw [Option.eq_none_iff_forall_ne_some]
  intro index decoded
  have digits := ((decodeArrayIndexFromPointer_iff pointer index).mp decoded).1
  rw [← token_text, texts] at digits
  revert digits
  decide

/-- Where a node has been detached, a value can be put in. -/
theorem addToPath_of_detachPath {value result : Item} {status : Nat}
    (detached : detachPath document path caseSensitive = some (place, item, rest))
    (ran : addToPath rest path value caseSensitive = some (status, result)) : status = 0 := by
  rcases detachPath_eq_some detached with
    ⟨parentPointer, childPointer, parentPath, parent, remaining, position, detaches⟩
  have fields := cjsonDetachItemViaPointer_fields detaches.removed
  have modified : document.modify
      (fun node => (cjsonDetachItemViaPointer node position).map Prod.snd) parentPath = some rest := by
    rw [Item.modify_const detaches.at?, detaches.removed]
    exact detaches.modified
  have walked : getItemFromPointer rest parentPointer caseSensitive = some parentPath := by
    apply walked_again _ detaches.walked modified
    intro node new change
    rcases Option.map_eq_some_iff.mp change with ⟨both, removed, rfl⟩
    exact cjsonDetachItemViaPointer_fields removed
  have there : rest.at? parentPath = some remaining := by
    rcases Item.modify_at detaches.modified with ⟨node, new, _, same, found⟩
    cases same
    exact found
  have kind : remaining.isArray = parent.isArray ∧ remaining.isObject = parent.isObject := by
    rw [Item.isArray, Item.isObject, Item.base, fields]
    exact ⟨rfl, rfl⟩
  rw [addToPath, detaches.split] at ran
  simp only [walked, there] at ran
  rcases detaches.token with ⟨array, decoded⟩ | ⟨notArray, object⟩
  · rw [if_pos (kind.1.trans array)] at ran
    have notDash : ¬ compareBy id (decodePointerInplace childPointer) [45] = 0 := by
      intro same
      rw [decodeArrayIndexFromPointer_dash same] at decoded
      cases decoded
    rw [if_neg notDash, decoded] at ran
    rcases Option.bind_eq_some_iff.mp ran with ⟨⟨inserted, changed⟩, insertion, ran⟩
    rcases Option.bind_eq_some_iff.mp ran with ⟨other, _, ran⟩
    cases ran
    rcases cjsonDetachItemViaPointer_eq detaches.removed with ⟨child, headPrev, rfl⟩
    have inside := (List.getElem?_eq_some_iff.mp child).1
    have room : ¬ (parent.withChildren (parent.child.eraseIdx position) headPrev).child.length < position := by
      rw [withChildren_child, List.length_eraseIdx_of_lt inside]
      omega
    rw [insertItemInArray, if_neg room] at insertion
    split at insertion
    · rcases Option.map_eq_some_iff.mp insertion with ⟨_, _, same⟩
      cases same
      rfl
    · cases insertion
      rfl
  · rw [if_neg (by rw [kind.1, notArray]; exact Bool.false_ne_true), if_pos (kind.2.trans object)] at ran
    rcases Option.bind_eq_some_iff.mp ran with ⟨_, _, ran⟩
    rcases Option.bind_eq_some_iff.mp ran with ⟨_, _, ran⟩
    cases ran
    rfl

end Paths

/-! ## Failures -/

/-- The failures that come too late, in terms of the document before the patch: a
replacement below the root that returns 7 although `detach_path` finds its path, and a
move that returns 9, 10 or 11 although `detach_path` finds its source.  By then the
detached node is out of the document. -/
inductive TooLate (document patch : Item) (caseSensitive : Bool) : Nat -> Prop where
  | replacement {pathItem : Item} {path : Bytes} {taken : Item.Path × Item × Item} {status : Nat}
      (operation : decodePatchOperation patch caseSensitive = some .replace)
      (given : getMember patch pathName caseSensitive = some pathItem)
      (stored : pathItem.fields.valuestring = some path) (nonempty : text path ≠ [])
      (detached : detachPath document path caseSensitive = some taken) (noValue : status = 7) :
      TooLate document patch caseSensitive status
  | move {fromItem : Item} {pointer : Bytes} {taken : Item.Path × Item × Item} {status : Nat}
      (operation : decodePatchOperation patch caseSensitive = some .move)
      (given : getMember patch fromName caseSensitive = some fromItem)
      (stored : fromItem.fields.valuestring = some pointer)
      (detached : detachPath document pointer caseSensitive = some taken)
      (refused : status = 9 ∨ status = 10 ∨ status = 11) : TooLate document patch caseSensitive status

/-- What the document is after an operation that has failed with a status.  If the failure
does not come too late, its value is what it was.  A replacement that has removed the old
value and then found no new one, and a move that could not put in what it had taken out,
leave the document without exactly the detached node and what is below it. -/
inductive FailureLeaves (document patch : Item) (caseSensitive : Bool) : Nat -> Item -> Prop where
  | unchanged {status : Nat} {result : Item} (inTime : ¬ TooLate document patch caseSensitive status)
      (same : result.json true = document.json true) :
      FailureLeaves document patch caseSensitive status result
  | replaced {pathItem item rest : Item} {path : Bytes} {place : Item.Path}
      (operation : decodePatchOperation patch caseSensitive = some .replace)
      (given : getMember patch pathName caseSensitive = some pathItem)
      (stored : pathItem.fields.valuestring = some path) (nonempty : text path ≠ [])
      (noValue : getMember patch valueName caseSensitive = none)
      (detached : detachPath document path caseSensitive = some (place, item, rest))
      (loses : LosesExactly document place item rest) : FailureLeaves document patch caseSensitive 7 rest
  | moved {fromItem item rest : Item} {pointer : Bytes} {place : Item.Path} {status : Nat}
      (operation : decodePatchOperation patch caseSensitive = some .move)
      (given : getMember patch fromName caseSensitive = some fromItem)
      (stored : fromItem.fields.valuestring = some pointer)
      (detached : detachPath document pointer caseSensitive = some (place, item, rest))
      (refused : status = 9 ∨ status = 10 ∨ status = 11)
      (loses : LosesExactly document place item rest) : FailureLeaves document patch caseSensitive status rest

section Operations

variable {document patch : Item} {caseSensitive : Bool} {patched : Patched}

/-- Only a replacement and a move fail too late, each with its own statuses. -/
theorem TooLate.operation {status : Nat} (late : TooLate document patch caseSensitive status) :
    (decodePatchOperation patch caseSensitive = some .replace ∧ status = 7) ∨
      (decodePatchOperation patch caseSensitive = some .move ∧
        (status = 9 ∨ status = 10 ∨ status = 11)) := by
  cases late with
  | replacement operation _ _ _ _ noValue => exact Or.inl ⟨operation, noValue⟩
  | move operation _ _ _ refused => exact Or.inr ⟨operation, refused⟩

/-- With any other status a failure is in time. -/
theorem not_tooLate_of_status {status : Nat}
    (early : status ≠ 7 ∧ status ≠ 9 ∧ status ≠ 10 ∧ status ≠ 11) :
    ¬ TooLate document patch caseSensitive status := by
  intro late
  rcases late.operation with ⟨_, same⟩ | ⟨_, same⟩ <;> omega

/-- With any other operation a failure is in time. -/
theorem not_tooLate_of_operation {status : Nat} {operation : PatchOperation}
    (decoded : decodePatchOperation patch caseSensitive = some operation)
    (notReplace : operation ≠ .replace) (notMove : operation ≠ .move) :
    ¬ TooLate document patch caseSensitive status := by
  intro late
  rcases late.operation with ⟨same, _⟩ | ⟨same, _⟩
  · exact notReplace (Option.some_inj.mp (decoded.symm.trans same))
  · exact notMove (Option.some_inj.mp (decoded.symm.trans same))

/-- A test at most sorts the document. -/
theorem testPatch_keeps {pointer : Option Bytes} (distinct : document.DistinctKeysIn true)
    (ran : testPatch document patch pointer caseSensitive = some patched) :
    patched.object.json true = document.json true := by
  rw [testPatch] at ran
  cases walked : pointer.bind fun pointer => getItemFromPointer document pointer caseSensitive with
  | none =>
      simp only [walked, Option.bind_none] at ran
      cases ran
      rfl
  | some place =>
      cases found : document.at? place with
      | none =>
          simp only [walked, Option.bind_some, found] at ran
          cases ran
          rfl
      | some node =>
          simp only [walked, Option.bind_some, found] at ran
          split at ran
          · rename_i a b sameA _
            cases sameA
            rcases Option.bind_eq_some_iff.mp ran with ⟨compared, comparison, ran⟩
            rcases Option.bind_eq_some_iff.mp ran with ⟨changed, modified, ran⟩
            cases ran
            have nodeDistinct := distinct.at? found
            exact (tidied_modify distinct found (compareJson_tidies comparison nodeDistinct) modified).json
          · cases ran
            rfl

/-- The failures of `add`, and of `replace` once the old value is gone.  The status is
7 if there is no value; the copy itself cannot fail, as the patch is shallow. -/
theorem addValue_failed {path : Bytes} (shallow : patch.height ≤ cjsonCircularLimit)
    (ran : addValue document patch path caseSensitive = some patched) (failed : patched.status ≠ 0) :
    patched.object = document ∧
      (patched.status = 7 ∧ getMember patch valueName caseSensitive = none ∨
        ∃ copy result, addToPath document path copy caseSensitive = some (patched.status, result)) := by
  rw [addValue] at ran
  cases given : getMember patch valueName caseSensitive with
  | none =>
      simp only [given] at ran
      cases ran
      exact ⟨rfl, Or.inl ⟨rfl, rfl⟩⟩
  | some value =>
      have inside : value ∈ patch.child := by
        rcases Option.bind_eq_some_iff.mp given with ⟨position, _, there⟩
        exact List.mem_of_getElem? there
      have below := height_lt_of_mem inside (Nat.lt_succ_self patch.height)
      rcases @duplicateRec_copies caseSensitive value 0 (by omega) with ⟨copy, made, _⟩
      simp only [given, cjsonDuplicate, made] at ran
      rcases Option.bind_eq_some_iff.mp ran with ⟨⟨status, result⟩, added, ran⟩
      cases ran
      exact ⟨(addToPath_failed added failed).1, Or.inr ⟨copy, result, added⟩⟩

/-- The failures of `copy` change nothing, those of `move` may come too late: then the
document is without the node that was moved, and the status is one of the three that
follow a detach. -/
theorem transferValue_failed {operation : PatchOperation} {path : Bytes}
    (decoded : decodePatchOperation patch caseSensitive = some operation)
    (notReplace : operation ≠ .replace)
    (ran : transferValue document patch operation path caseSensitive = some patched)
    (failed : patched.status ≠ 0) :
    FailureLeaves document patch caseSensitive patched.status patched.object := by
  rw [transferValue] at ran
  cases given : getMember patch fromName caseSensitive with
  | none =>
      simp only [given] at ran
      cases ran
      exact .unchanged (not_tooLate_of_status (by simp)) rfl
  | some source =>
      simp only [given] at ran
      by_cases isString : source.isString = true
      · rw [isString, Bool.not_true, if_neg Bool.false_ne_true] at ran
        by_cases move : operation = .move
        · rw [if_pos move] at ran
          cases stored : source.fields.valuestring with
          | none => simp [stored] at ran
          | some pointer =>
              simp only [stored] at ran
              cases detached : detachPath document pointer caseSensitive with
              | none =>
                  simp only [detached] at ran
                  cases ran
                  exact .unchanged (not_tooLate_of_status (by simp)) rfl
              | some taken =>
                  rcases taken with ⟨place, value, rest⟩
                  simp only [detached] at ran
                  rcases Option.bind_eq_some_iff.mp ran with ⟨⟨status, result⟩, added, ran⟩
                  cases ran
                  rcases addToPath_failed added failed with ⟨rfl, refused⟩
                  exact .moved (decoded.trans (congrArg some move)) given stored detached refused
                    (losesExactly_of_detachPath detached)
        · rw [if_neg move] at ran
          cases found : ((source.fields.valuestring.bind fun pointer =>
              getItemFromPointer document pointer caseSensitive).bind document.at?) with
          | none =>
              simp only [found] at ran
              cases ran
              exact .unchanged (not_tooLate_of_operation decoded notReplace move) rfl
          | some value =>
              simp only [found] at ran
              cases copied : cjsonDuplicate value with
              | none =>
                  simp only [copied] at ran
                  cases ran
                  exact .unchanged (not_tooLate_of_operation decoded notReplace move) rfl
              | some copy =>
                  simp only [copied] at ran
                  rcases Option.bind_eq_some_iff.mp ran with ⟨⟨status, result⟩, added, ran⟩
                  cases ran
                  rw [(addToPath_failed added failed).1]
                  exact .unchanged (not_tooLate_of_operation decoded notReplace move) rfl
      · rw [Bool.not_eq_true] at isString
        rw [isString, Bool.not_false, if_pos rfl] at ran
        cases ran
        exact .unchanged (not_tooLate_of_status (by simp)) rfl

theorem overwriteRoot_failed {operation : PatchOperation}
    (failed : (overwriteRoot document patch operation caseSensitive).status ≠ 0) :
    (overwriteRoot document patch operation caseSensitive).object = document := by
  rw [overwriteRoot] at failed ⊢
  by_cases remove : operation = .remove
  · rw [if_pos remove] at failed
    exact absurd rfl failed
  · rw [if_neg remove] at failed ⊢
    cases given : getMember patch valueName caseSensitive with
    | none => simp only
    | some value =>
        cases copied : cjsonDuplicate value with
        | none => simp only [copied]
        | some copy =>
            simp only [given, copied] at failed
            exact absurd rfl failed

theorem applyAtPath_failed {pathItem : Item} {operation : PatchOperation} {path : Bytes}
    (shallow : patch.height ≤ cjsonCircularLimit)
    (given : getMember patch pathName caseSensitive = some pathItem)
    (stored : pathItem.fields.valuestring = some path) (nonempty : first path ≠ 0 ∨ operation ≠ .replace)
    (decoded : decodePatchOperation patch caseSensitive = some operation)
    (ran : applyAtPath document patch operation path caseSensitive = some patched)
    (failed : patched.status ≠ 0) :
    FailureLeaves document patch caseSensitive patched.status patched.object := by
  cases operation with
  | invalid => exact transferValue_failed decoded (by decide) ran failed
  | test => exact transferValue_failed decoded (by decide) ran failed
  | move => exact transferValue_failed decoded (by decide) ran failed
  | copy => exact transferValue_failed decoded (by decide) ran failed
  | add =>
      rw [(addValue_failed shallow ran failed).1]
      exact .unchanged (not_tooLate_of_operation decoded (by decide) (by decide)) rfl
  | remove =>
      simp only [applyAtPath] at ran
      cases detached : detachPath document path caseSensitive with
      | none =>
          simp only [detached] at ran
          cases ran
          exact .unchanged (not_tooLate_of_status (by simp)) rfl
      | some taken =>
          simp only [detached] at ran
          cases ran
          exact absurd rfl failed
  | replace =>
      simp only [applyAtPath] at ran
      cases detached : detachPath document path caseSensitive with
      | none =>
          simp only [detached] at ran
          cases ran
          exact .unchanged (not_tooLate_of_status (by simp)) rfl
      | some taken =>
          rcases taken with ⟨place, item, rest⟩
          simp only [detached] at ran
          rcases addValue_failed shallow ran failed with ⟨same, ⟨status, noValue⟩ | ⟨copy, result, added⟩⟩
          · rw [same, status]
            refine .replaced decoded given stored ?_ noValue detached (losesExactly_of_detachPath detached)
            rw [Ne, text_eq_nil_iff]
            exact nonempty.resolve_right (not_not.mpr rfl)
          · exact absurd (addToPath_of_detachPath detached added) failed

end Operations

/-- What a failed operation leaves of a document whose siblings have different names, in
both modes. -/
theorem applyPatch_failed (document patch : Item) (caseSensitive : Bool) (patched : Patched)
    (distinct : document.DistinctKeysIn true) (shallow : patch.height ≤ cjsonCircularLimit)
    (ran : applyPatch document patch caseSensitive = some patched) (failed : patched.status ≠ 0) :
    FailureLeaves document patch caseSensitive patched.status patched.object := by
  rw [applyPatch] at ran
  cases given : getMember patch pathName caseSensitive with
  | none =>
      simp only [given] at ran
      cases ran
      exact .unchanged (not_tooLate_of_status (by simp)) rfl
  | some pathItem =>
      simp only [given] at ran
      by_cases isString : pathItem.isString = true
      · rw [isString, Bool.not_true, if_neg Bool.false_ne_true] at ran
        rcases Option.bind_eq_some_iff.mp ran with ⟨operation, decoded, ran⟩
        have elsewhere (notInvalid : operation ≠ .invalid) (notTest : operation ≠ .test)
            (ran : (do
              let pointer ← pathItem.fields.valuestring
              if first pointer = 0 ∧ operation ≠ .move ∧ operation ≠ .copy then
                some (overwriteRoot document patch operation caseSensitive)
              else applyAtPath document patch operation pointer caseSensitive) = some patched) :
            FailureLeaves document patch caseSensitive patched.status patched.object := by
          rcases Option.bind_eq_some_iff.mp ran with ⟨path, stored, ran⟩
          by_cases root : first path = 0 ∧ operation ≠ .move ∧ operation ≠ .copy
          · rw [if_pos root] at ran
            cases ran
            rw [overwriteRoot_failed failed]
            refine .unchanged ?_ rfl
            intro late
            rcases late with ⟨replace, givenAgain, storedAgain, nonempty, _⟩ | ⟨move, _⟩
            · rw [given] at givenAgain
              cases givenAgain
              rw [stored] at storedAgain
              cases storedAgain
              exact nonempty (text_eq_nil_iff.mpr root.1)
            · exact root.2.1 (Option.some_inj.mp (decoded.symm.trans move))
          · rw [if_neg root] at ran
            refine applyAtPath_failed shallow given stored ?_ decoded ran failed
            by_cases ended : first path = 0
            · right
              rintro rfl
              exact root ⟨ended, by decide, by decide⟩
            · exact Or.inl ended
        cases operation with
        | invalid =>
            cases ran
            exact .unchanged (not_tooLate_of_status (by simp)) rfl
        | test =>
            exact .unchanged (not_tooLate_of_operation decoded (by decide) (by decide))
              (testPatch_keeps distinct ran)
        | add => exact elsewhere (by decide) (by decide) ran
        | remove => exact elsewhere (by decide) (by decide) ran
        | replace => exact elsewhere (by decide) (by decide) ran
        | move => exact elsewhere (by decide) (by decide) ran
        | copy => exact elsewhere (by decide) (by decide) ran
      · rw [Bool.not_eq_true] at isString
        rw [isString, Bool.not_false, if_pos rfl] at ran
        cases ran
        exact .unchanged (not_tooLate_of_status (by simp)) rfl

/-- `{"op": "replace", "path": "/a"}` on `{"A": null, "a": null}`. -/
theorem applyPatch_failed_noValue :
    ∃ patched, applyPatch (nullMembers [65] [97]) (patchItem replaceText [slash, 97] none) true =
        some patched ∧ patched.status = 7 ∧
      FailureLeaves (nullMembers [65] [97]) (patchItem replaceText [slash, 97] none) true patched.status
        patched.object := by
  refine ⟨_, rfl, rfl, ?_⟩
  exact applyPatch_failed (nullMembers [65] [97]) (patchItem replaceText [slash, 97] none) true _
    (nullMembers_distinctKeysIn (by decide)) (by decide) rfl (by decide)

end CJson
