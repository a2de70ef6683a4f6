import CJson.Agreement
import CJson.MergeDiff

/-!
# When a merge patch leads back

The patch that `generate_merge_patch` makes of two documents says for every name what
becomes of it, and some names twice.  The walk steps by the bytes of names that have
been sorted without regard to case, and so it can come by a member of the second
document before it comes by its partner in the first one: what has been added is then
deleted again.
-/

namespace CJson

open CString Item Lockstep

/-! ## Documents -/

/-- The scalars that JSON has, with numbers of any size: no raw text, no invalid node,
no string without a text, and no number that is infinite or none. -/
def Scalar.Ordinary : Scalar -> Prop
  | .false => True
  | .true => True
  | .number _ (.finite _) => True
  | .string (some _) => True
  | _ => False

/-- A document: the members of an object have names that are different up to case, and
the nodes are of the kinds that JSON has. -/
structure Item.IsDocument (item : Item) : Prop where
  distinct : item.DistinctKeysIn false
  ordinary : ∀ caseSensitive, Json.Only Scalar.Ordinary (item.json caseSensitive)

/-- `cJSON_Compare` takes two documents for equal.  It is said of their values, and
numbers may differ by the tolerance of the comparison. -/
def EqualIn (caseSensitive : Bool) (first second : Item) : Prop :=
  Json.Like Scalar.Close (first.json caseSensitive) (second.json caseSensitive)

/-- `compare_json` takes two documents for equal.  The generator goes by this
comparison, and the recipient by the other one; where they differ a change is lost. -/
def AgreeIn (caseSensitive : Bool) (first second : Item) : Prop :=
  Json.Like Scalar.Agrees (first.json caseSensitive) (second.json caseSensitive)

section Documents

variable {caseSensitive : Bool}

theorem compareDouble_self (value : ℚ) : compareDouble (.finite value) (.finite value) = true := by
  have distance : ((Binary64.finite value).sub (.finite value)).abs = .finite 0 := by
    rw [Binary64.sub, sub_self, Binary64.round_zero, Binary64.abs, abs_zero]
  rw [compareDouble, ite_self, distance, Binary64.abs]
  exact Binary64.le_zero_round (by positivity)

theorem Scalar.Ordinary.close {scalar : Scalar} (ordinary : scalar.Ordinary) : scalar.Close scalar := by
  cases scalar with
  | invalid => exact ordinary.elim
  | false => trivial
  | true => trivial
  | number value double =>
      cases double with
      | finite double => exact compareDouble_self double
      | _ => exact ordinary.elim
  | string bytes =>
      cases bytes with
      | none => exact ordinary.elim
      | some bytes => exact rfl
  | raw => exact ordinary.elim

theorem Scalar.Ordinary.stored {scalar : Scalar} (ordinary : scalar.Ordinary) : scalar.Stored := by
  rintro rfl
  exact ordinary

theorem Item.IsDocument.distinctIn {item : Item} (document : item.IsDocument) :
    item.DistinctKeysIn caseSensitive :=
  document.distinct.of_false

theorem Item.IsDocument.child {item next : Item} (document : item.IsDocument)
    (container : item.isArray = true ∨ item.isObject = true) (member : next ∈ item.child) :
    next.IsDocument where
  distinct := document.distinct.child member
  ordinary := fun _ => only_child (document.ordinary _) document.distinctIn container member

theorem Item.IsDocument.equalIn {item : Item} (document : item.IsDocument) : EqualIn caseSensitive item item :=
  Json.Like.refl (document.ordinary caseSensitive) fun _ ordinary => ordinary.close

end Documents

/-! ## The condition -/

/-- How the loop passes the members of two objects, called in a mode. -/
def passing (generator : Bool) (from_ to_ : Item) : List (Turn Item Item) :=
  walk byBytes (sortObject from_ generator).child (sortObject to_ generator).child

/-- The second document can be recovered from the first one and the patch that is made
of them in one mode, where the patch is merged in the other mode.  Whatever is copied
can be copied; no member of the second object is passed before its partner in the
first one; and two members that are passed together are equal or, if the generator
finds them different, can be recovered.  A member that is passed before its partner is
added to the patch and then, when its partner is met, removed by it. -/
inductive Recoverable (caseSensitive : Bool) : Bool -> Item -> Item -> Prop where
  | whole {generator : Bool} {from_ to_ : Item} (notBoth : to_.isObject = false ∨ from_.isObject = false)
      (copied : to_.height ≤ cjsonCircularLimit ∨ EqualIn caseSensitive from_ to_) :
      Recoverable caseSensitive generator from_ to_
  | members {generator : Bool} {from_ to_ : Item} (isObject : from_.isObject = true)
      (toObject : to_.isObject = true)
      (added : ∀ new, .right new ∈ passing generator from_ to_ -> new.height ≤ cjsonCircularLimit)
      (ordered : Ordered (nameIn caseSensitive) (nameIn caseSensitive) (passing generator from_ to_))
      (kept : ∀ old new, .both old new ∈ passing generator from_ to_ -> AgreeIn generator old new ->
        EqualIn caseSensitive old new)
      (changed : ∀ old new, .both old new ∈ passing generator from_ to_ -> ¬ AgreeIn generator old new ->
        Recoverable caseSensitive false old new) :
      Recoverable caseSensitive generator from_ to_

/-! ## One name at a time -/

section Names

variable {caseSensitive generator : Bool}

/-- The member that a value has is that of the first child of this name. -/
theorem jsonMembers_eq_head? (children : List Item) (name : Bytes) :
    jsonMembers caseSensitive children name =
      ((children.filter fun child => child.nameIn caseSensitive = name).head?).map (json caseSensitive) := by
  induction children with
  | nil => rfl
  | cons child rest ih =>
      rw [jsonMembers]
      by_cases here : child.nameIn caseSensitive = name
      · rw [if_pos here, List.filter_cons_of_pos (by simpa using here)]
        rfl
      · rw [if_neg here, List.filter_cons_of_neg (by simpa using here), ih]

/-- What becomes of a member depends on the members of its name alone. -/
theorem patchedMembers_congr {children : List Item} {members others : Bytes -> Option (Json Bytes Scalar)}
    {name : Bytes} (same : members name = others name) :
    patchedMembers caseSensitive children members name =
      patchedMembers caseSensitive children others name := by
  induction children generalizing members others with
  | nil => exact same
  | cons child rest ih =>
      rw [patchedMembers, patchedMembers]
      apply ih
      by_cases here : name = child.nameIn caseSensitive
      · subst here
        rw [Function.update_self, Function.update_self, same]
      · rw [Function.update_of_ne here, Function.update_of_ne here, same]

theorem patchedMembers_filter {children : List Item} {members : Bytes -> Option (Json Bytes Scalar)}
    {name : Bytes} :
    patchedMembers caseSensitive children members name =
      patchedMembers caseSensitive (children.filter fun child => child.nameIn caseSensitive = name) members
        name := by
  induction children generalizing members with
  | nil => rfl
  | cons child rest ih =>
      rw [patchedMembers]
      by_cases here : child.nameIn caseSensitive = name
      · rw [List.filter_cons_of_pos (by simpa using here), patchedMembers, ih]
      · rw [List.filter_cons_of_neg (by simpa using here), ih]
        exact patchedMembers_congr (Function.update_of_ne (Ne.symm here) _ _)

/-- The name that a turn is about. -/
abbrev turnName (caseSensitive : Bool) : Turn Item Item -> Bytes :=
  Turn.key (nameIn caseSensitive) (nameIn caseSensitive)

/-- What has to hold of two members that are passed together: if the generator skips
them they are equal, and if not they can be recovered. -/
def Meets (caseSensitive generator : Bool) (old new : Item) : Prop :=
  (AgreeIn generator old new -> EqualIn caseSensitive old new) ∧
    (¬ AgreeIn generator old new -> Recoverable caseSensitive false old new)

/-- What a turn adds to the patch, and what that does to the member of its name.  A
member that is gone adds a `null`, a new one adds a copy of it, and one that has
changed adds a patch for its value.  Nothing is added for an equal member, and nothing
for one too deep to be copied. -/
inductive Contributes (caseSensitive generator : Bool) : Turn Item Item -> List Item -> Prop where
  | remove {old entry : Item} (isNull : entry.isNull = true) :
      Contributes caseSensitive generator (.left old) [entry]
  | add {new entry : Item} (shallow : new.height ≤ cjsonCircularLimit) (notNull : entry.isNull = false)
      (value : patched caseSensitive entry none = new.json caseSensitive)
      (equal : EqualIn caseSensitive new new) :
      Contributes caseSensitive generator (.right new) [entry]
  | deep {new : Item} (deep : ¬ new.height ≤ cjsonCircularLimit) :
      Contributes caseSensitive generator (.right new) []
  | keep {old new : Item} (decides : EqualIn caseSensitive old new ↔ Meets caseSensitive generator old new) :
      Contributes caseSensitive generator (.both old new) []
  | change {old new entry : Item} (notNull : entry.isNull = false)
      (decides : Json.Like Scalar.Close (patched caseSensitive entry (some (old.json caseSensitive)))
        (new.json caseSensitive) ↔ Meets caseSensitive generator old new) :
      Contributes caseSensitive generator (.both old new) [entry]

/-- What has to hold of all the turns, so that what they add to the patch leads to the
second object.  The order among turns counts only for members of one name. -/
structure Recovers (caseSensitive generator : Bool) (turns : List (Turn Item Item)) : Prop where
  added : ∀ new, .right new ∈ turns -> new.height ≤ cjsonCircularLimit
  ordered : Ordered (nameIn caseSensitive) (nameIn caseSensitive) turns
  met : ∀ old new, .both old new ∈ turns -> Meets caseSensitive generator old new

theorem recovers_iff_filter {turns : List (Turn Item Item)} :
    Recovers caseSensitive generator turns ↔ ∀ name, Recovers caseSensitive generator
      (turns.filter fun turn => turnName caseSensitive turn = name) := by
  constructor
  · intro recovers name
    refine ⟨fun new member => ?_, ?_, fun old new member => ?_⟩
    · exact recovers.added new (List.mem_of_mem_filter member)
    · exact recovers.ordered.sublist List.filter_sublist
    · exact recovers.met old new (List.mem_of_mem_filter member)
  · intro each
    have kept : ∀ turn ∈ turns, turn ∈ turns.filter fun other =>
        turnName caseSensitive other = turnName caseSensitive turn :=
      fun turn member => List.mem_filter.mpr ⟨member, decide_eq_true rfl⟩
    refine ⟨fun new member => ?_, ?_, fun old new member => ?_⟩
    · exact (each _).added new (kept _ member)
    · exact ordered_iff_filter.mpr fun name => (each name).ordered
    · exact (each _).met old new (kept _ member)

theorem patchedMembers_cons {entry : Item} (rest : List Item) {members : Bytes -> Option (Json Bytes Scalar)}
    {name : Bytes} (named : entry.nameIn caseSensitive = name) :
    patchedMembers caseSensitive (entry :: rest) members name =
      patchedMembers caseSensitive rest (Function.update members name (if entry.isNull then none
        else some (patched caseSensitive entry (members name)))) name := by
  rw [patchedMembers, named]

theorem recovers_iff {turns : List (Turn Item Item)} :
    Recovers caseSensitive generator turns ↔
      (∀ new, .right new ∈ turns -> new.height ≤ cjsonCircularLimit) ∧
      Ordered (nameIn caseSensitive) (nameIn caseSensitive) turns ∧
      ∀ old new, .both old new ∈ turns -> Meets caseSensitive generator old new :=
  ⟨fun recovers => ⟨recovers.added, recovers.ordered, recovers.met⟩,
    fun parts => ⟨parts.1, parts.2.1, parts.2.2⟩⟩

theorem recovers_left (old : Item) : Recovers caseSensitive generator [.left old] := by
  simp [recovers_iff, Ordered]

theorem recovers_right_iff (new : Item) :
    Recovers caseSensitive generator [.right new] ↔ new.height ≤ cjsonCircularLimit := by
  simp [recovers_iff, Ordered]

theorem recovers_both_iff (old new : Item) :
    Recovers caseSensitive generator [.both old new] ↔ Meets caseSensitive generator old new := by
  simp [recovers_iff, Ordered]

theorem recovers_leftFirst_iff (old new : Item) :
    Recovers caseSensitive generator [.left old, .right new] ↔ new.height ≤ cjsonCircularLimit := by
  simp [recovers_iff, Ordered, Turn.Overtakes]

theorem not_recovers_rightFirst {old new : Item}
    (same : old.nameIn caseSensitive = new.nameIn caseSensitive) :
    ¬ Recovers caseSensitive generator [.right new, .left old] := by
  simp [recovers_iff, Ordered, Turn.Overtakes, same]

/-- The turns of one name make the member of this name what it should be exactly if they meet
the condition. -/
theorem Contributes.passed {steps : List (Turn Item Item × List Item)} {name : Bytes}
    {members : Bytes -> Option (Json Bytes Scalar)} (passage : Passage (steps.map Prod.fst))
    (contributes : ∀ step ∈ steps, Contributes caseSensitive generator step.1 step.2)
    (about : ∀ step ∈ steps, turnName caseSensitive step.1 = name)
    (named : ∀ step ∈ steps, ∀ entry ∈ step.2, entry.nameIn caseSensitive = name)
    (before : members name =
      (((steps.map Prod.fst).filterMap Turn.left?).head?).map (json caseSensitive)) :
    Option.Rel (Json.Like Scalar.Close)
        (patchedMembers caseSensitive (steps.flatMap Prod.snd) members name)
        ((((steps.map Prod.fst).filterMap Turn.right?).head?).map (json caseSensitive)) ↔
      Recovers caseSensitive generator (steps.map Prod.fst) := by
  have some_iff : ∀ value other : Json Bytes Scalar, Option.Rel (Json.Like Scalar.Close) (some value)
      (some other) ↔ Json.Like Scalar.Close value other := by
    intro value other
    constructor
    · intro both
      cases both with
      | some like => exact like
    · exact .some
  rcases steps with _ | ⟨⟨turn, entries⟩, _ | ⟨⟨later, laterEntries⟩, rest⟩⟩
  · -- the name occurs on neither side
    rw [List.flatMap_nil, patchedMembers, before]
    exact iff_of_true .none ⟨(fun _ impossible => by cases impossible), List.Pairwise.nil,
      (fun _ _ impossible => by cases impossible)⟩
  · rw [List.forall_mem_singleton] at contributes named
    rw [List.flatMap_singleton]
    dsimp only at contributes named ⊢
    cases contributes with
    | remove isNull =>
        rw [patchedMembers_cons [] (named _ List.mem_cons_self), patchedMembers, Function.update_self, if_pos isNull]
        exact iff_of_true .none (recovers_left _)
    | add shallow notNull value equal =>
        rw [patchedMembers_cons [] (named _ List.mem_cons_self), patchedMembers, Function.update_self, notNull,
          if_neg Bool.false_ne_true, before]
        refine iff_of_true ?_ ((recovers_right_iff _).mpr shallow)
        exact .some (value.symm ▸ equal)
    | deep deep =>
        rw [patchedMembers, before]
        exact iff_of_false (fun both => by cases both) (mt (recovers_right_iff _).mp deep)
    | keep decides =>
        rw [patchedMembers, before]
        exact (some_iff _ _).trans (decides.trans (recovers_both_iff _ _).symm)
    | change notNull decides =>
        rw [patchedMembers_cons [] (named _ List.mem_cons_self), patchedMembers, Function.update_self, notNull,
          if_neg Bool.false_ne_true, before]
        exact (some_iff _ _).trans (decides.trans (recovers_both_iff _ _).symm)
  · have short : rest = [] := by
      cases rest with
      | nil => rfl
      | cons step rest => cases passage
    subst short
    rw [List.forall_mem_cons, List.forall_mem_singleton] at contributes named about
    rw [List.flatMap_cons, List.flatMap_singleton]
    dsimp only [List.map_cons, List.map_nil] at contributes named about passage ⊢
    rcases contributes with ⟨first, second⟩
    cases passage with
    | leftFirst old new =>
        cases first with
        | remove isNull =>
            cases second with
            | add shallow notNull value equal =>
                rw [List.singleton_append, patchedMembers_cons _ (named.1 _ List.mem_cons_self), if_pos isNull,
                  patchedMembers_cons [] (named.2 _ List.mem_cons_self), patchedMembers, Function.update_self,
                  notNull, if_neg Bool.false_ne_true, Function.update_self]
                refine iff_of_true ?_ ((recovers_leftFirst_iff _ _).mpr shallow)
                exact .some (value.symm ▸ equal)
            | deep deep =>
                rw [List.append_nil, patchedMembers_cons [] (named.1 _ List.mem_cons_self), if_pos isNull,
                  patchedMembers, Function.update_self]
                exact iff_of_false (fun both => by cases both) (mt (recovers_leftFirst_iff _ _).mp deep)
    | rightFirst old new =>
        -- what has been added is deleted again
        cases second with
        | @remove _ entry isNull =>
            apply iff_of_false _ (not_recovers_rightFirst (about.2.trans about.1.symm))
            cases first with
            | add shallow notNull value equal =>
                rw [List.singleton_append, patchedMembers_cons _ (named.1 _ List.mem_cons_self),
                  patchedMembers_cons [] (named.2 _ List.mem_cons_self), if_pos isNull, patchedMembers,
                  Function.update_self]
                exact fun both => by cases both
            | deep deep =>
                rw [List.nil_append, patchedMembers_cons [] (named.2 _ List.mem_cons_self), if_pos isNull,
                  patchedMembers, Function.update_self]
                exact fun both => by cases both

end Names

end CJson
