import CJson.FindPointer

/-!
# Pointers put together

A pointer that is followed behind another one is a pointer again.  The walker needs no end of
text between the two: it reads a token up to the next `/` and forgets where it came from, and an
escape that the first pointer breaks off is no more valid with a `/` behind it.  The search for
a node puts its pointers together in the same way.
-/

namespace CJson

open CString

/-! ## Following -/

/-- A token is over where another pointer begins. -/
theorem token_append_pointer {front back : Bytes} (ends : tokenEnds back = true) :
    token (front ++ back) = token front := by
  induction front with
  | nil => exact (tokenEnds_iff back).mp ends
  | cons byte front ih => rw [List.cons_append, token_cons, token_cons, ih]

theorem followPointer_pointer {caseSensitive : Bool} {front back : Bytes} (item : Item)
    (free : (0 : UInt8) ∉ front) (ends : tokenEnds back = true) :
    followPointer caseSensitive (front ++ back) item =
      (followPointer caseSensitive front item).bind fun path =>
        (item.at? path).bind fun node => (followPointer caseSensitive back node).map (path ++ ·) := by
  induction front generalizing item with
  | nil => simp [followPointer, Item.at?]
  | cons byte front ih =>
      rw [List.mem_cons, not_or] at free
      rw [List.cons_append, followPointer, followPointer, if_neg (Ne.symm free.1), if_neg (Ne.symm free.1)]
      by_cases separator : byte = slash
      · rw [if_pos separator, if_pos separator, selectChild_congr (token_append_pointer ends)]
        cases selectChild caseSensitive item front with
        | none => rfl
        | some position =>
            cases child : item.child[position]? with
            | none => simp [child]
            | some next =>
                simp only [child]
                rw [ih next free.2]
                cases followPointer caseSensitive front next with
                | none => rfl
                | some path =>
                    simp only [Option.map_some, Option.bind_some, Item.at?, child]
                    cases next.at? path with
                    | none => rfl
                    | some node => simp [Function.comp_def]
      · rw [if_neg separator, if_neg separator]
        exact ih item free.2

/-- In either mode, a pointer behind another one leads from the root to where it leads from the
node that the other one designates; and nowhere, if either of them does. -/
theorem getItemFromPointer_join (document : Item) (front back : Bytes) (caseSensitive : Bool)
    (free : (0 : UInt8) ∉ front) (frontWhole : front = [] ∨ first front = slash)
    (backWhole : first back = 0 ∨ first back = slash) :
    getItemFromPointer document (front ++ back) caseSensitive =
      (getItemFromPointer document front caseSensitive).bind fun path =>
        (document.at? path).bind fun node => (getItemFromPointer node back caseSensitive).map (path ++ ·) := by
  have ends : tokenEnds back = true := by
    rw [tokenEnds, Bool.or_eq_true, beq_iff_eq, beq_iff_eq]
    exact backWhole
  -- the walk along `back` makes no turn if `back` is empty
  have behind : ∀ node, getItemFromPointer node back caseSensitive = followPointer caseSensitive back node := by
    intro node
    rw [getItemFromPointer]
    split
    · rfl
    · rename_i notSlash
      have empty := backWhole.resolve_right notSlash
      cases back with
      | nil => rfl
      | cons byte rest => rw [followPointer, if_pos (by simpa using empty)]
  rcases frontWhole with rfl | leading
  · simp [getItemFromPointer, Item.at?, slash_ne_zero.symm]
  · have whole : first (front ++ back) = slash := by
      cases front with
      | nil => exact absurd leading slash_ne_zero.symm
      | cons byte rest => exact leading
    simp only [behind]
    rw [getItemFromPointer, if_pos whole, getItemFromPointer, if_pos leading,
      followPointer_pointer document free ends]

/-- The pointers `/~0~1` and `/0` into `{"~/": [null]}`. -/
theorem getItemFromPointer_join_escapedName :
    getItemFromPointer escapedName ([slash, tilde, 48, tilde, 49] ++ [slash, 48, 0]) true =
      (getItemFromPointer escapedName [slash, tilde, 48, tilde, 49] true).bind fun path =>
        (escapedName.at? path).bind fun node => (getItemFromPointer node [slash, 48, 0] true).map (path ++ ·) :=
  getItemFromPointer_join escapedName _ _ true (by decide) (Or.inr rfl) (Or.inr rfl)

/-! ## Searching -/

/-- What stands behind a node is put behind its token, in an array or an object.  The
token does not depend on what is put there. -/
theorem extendPointer_append {fields : Fields} {position : Nat} {next : Item} {body rest result : Bytes}
    (bodyFree : (0 : UInt8) ∉ body) (restFree : (0 : UInt8) ∉ rest)
    (extended : extendPointer fields position next (body ++ [0]) = .ok (some result)) :
    ∃ token, (0 : UInt8) ∉ token ∧ result = token ++ body ++ [0] ∧
      extendPointer fields position next (body ++ rest ++ [0]) = .ok (some (token ++ (body ++ rest) ++ [0])) := by
  have bothFree : (0 : UInt8) ∉ body ++ rest := by
    rw [List.mem_append, not_or]
    exact ⟨bodyFree, restFree⟩
  rw [extendPointer] at extended ⊢
  split at extended
  · rename_i array
    cases extended
    rw [if_pos array, indexedPointer, indexedPointer, text_append_zero bodyFree, text_append_zero bothFree]
    refine ⟨slash :: decimalDigits position, ?_, by simp, by simp⟩
    rw [List.mem_cons, not_or]
    exact ⟨slash_ne_zero.symm, fun member => absurd (isDigit_of_mem_decimalDigits member) (by decide)⟩
  · rename_i notArray
    split at extended
    · rename_i object
      rw [if_neg notArray, if_pos object]
      cases named : next.string with
      | none =>
          rw [named] at extended
          cases extended
      | some string =>
          simp only [named] at extended ⊢
          rw [namedPointer_eq string bodyFree] at extended
          cases extended
          rw [namedPointer_eq string bothFree]
          refine ⟨slash :: escape (text string), ?_, by simp, by simp⟩
          rw [List.mem_cons, not_or]
          exact ⟨slash_ne_zero.symm, zero_not_mem_escape (zero_not_mem_text string)⟩
    · cases extended

/-- Every pointer that the search returns is a text with its terminator and nothing behind. -/
theorem findPointer_terminated {item : Item} {path : Item.Path} {pointer : Bytes}
    (found : cjsonUtilsFindPointerFromObjectTo item (some path) = .ok (some pointer)) :
    ∃ body, (0 : UInt8) ∉ body ∧ pointer = body ++ [0] := by
  induction path generalizing item pointer with
  | nil =>
      cases item
      rw [cjsonUtilsFindPointerFromObjectTo, if_pos rfl] at found
      cases found
      exact ⟨[], List.not_mem_nil, rfl⟩
  | cons position path ih =>
      rw [findPointer_cons] at found
      cases child : item.child[position]? with
      | none => simp [child] at found
      | some next =>
          simp only [child] at found
          cases below : cjsonUtilsFindPointerFromObjectTo next (some path) with
          | error fault => simp [below] at found
          | ok result =>
              cases result with
              | none => simp [below] at found
              | some target =>
                  simp only [below] at found
                  rcases ih below with ⟨body, bodyFree, rfl⟩
                  rcases extendPointer_append bodyFree List.not_mem_nil found with ⟨token, tokenFree, same, _⟩
                  refine ⟨token ++ body, ?_, same⟩
                  rw [List.mem_append, not_or]
                  exact ⟨tokenFree, bodyFree⟩

/-- The pointer to a node is the pointer to any node above it with the pointer from there behind
it. -/
theorem findPointer_join (root node : Item) (path rest : Item.Path) (front back : Bytes)
    (there : root.at? path = some node)
    (toNode : cjsonUtilsFindPointerFromObjectTo root (some path) = .ok (some front))
    (onward : cjsonUtilsFindPointerFromObjectTo node (some rest) = .ok (some back)) :
    cjsonUtilsFindPointerFromObjectTo root (some (path ++ rest)) = .ok (some (text front ++ back)) := by
  induction path generalizing root front with
  | nil =>
      cases there
      cases node
      rw [cjsonUtilsFindPointerFromObjectTo, if_pos rfl] at toNode
      cases toNode
      exact onward
  | cons position path ih =>
      rcases findPointer_terminated onward with ⟨last, lastFree, rfl⟩
      rw [List.cons_append, findPointer_cons]
      rw [findPointer_cons] at toNode
      cases child : root.child[position]? with
      | none => simp [child] at toNode
      | some next =>
          rw [Item.at?, child] at there
          simp only [child] at toNode ⊢
          cases below : cjsonUtilsFindPointerFromObjectTo next (some path) with
          | error fault => simp [below] at toNode
          | ok result =>
              cases result with
              | none => simp [below] at toNode
              | some target =>
                  simp only [below] at toNode
                  rcases findPointer_terminated below with ⟨body, bodyFree, rfl⟩
                  rcases extendPointer_append bodyFree lastFree toNode with ⟨token, tokenFree, rfl, extended⟩
                  have free : (0 : UInt8) ∉ token ++ body := by
                    rw [List.mem_append, not_or]
                    exact ⟨tokenFree, bodyFree⟩
                  rw [ih next _ there below, text_append_zero bodyFree, ← List.append_assoc body,
                    text_append_zero free]
                  exact extended.trans (by simp only [List.append_assoc])

/-- From the object `{"~/": [null]}` to its array, and on to the element. -/
theorem findPointer_join_escapedName : ∃ node, escapedName.at? [0] = some node ∧
    cjsonUtilsFindPointerFromObjectTo escapedName (some ([0] ++ [0])) =
      .ok (some (text [slash, tilde, 48, tilde, 49, 0] ++ [slash, 48, 0])) :=
  ⟨_, rfl, findPointer_join escapedName _ [0] [0] _ _ rfl (by decide) (by decide)⟩

end CJson
