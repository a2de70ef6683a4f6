import Mathlib.Data.List.Basic
import Mathlib.Order.Lattice
import Mathlib.Data.List.Lex

/-!
# NUL-terminated byte strings

A C string is read through a pointer, one byte at a time, until the byte `0`.
A block of memory is a list of bytes here, and a pointer into it is a suffix of
that list.  A read at or behind the end of the list yields the terminator, so a
list without a `0` is the string it spells, and a list with one is read only up
to its first `0`.

The three-way comparisons of C are one loop with a byte map as a parameter: the
identity for `strcmp` and the ASCII folding for its case-insensitive relative.
Their sign is the lexicographic order of the mapped texts.
-/

namespace CJson

/-- A block of memory, or the rest of one behind a pointer. -/
abbrev Bytes := List UInt8

namespace CString

/-- The byte a pointer reads. -/
def first : Bytes -> UInt8
  | [] => 0
  | byte :: _ => byte

@[simp] theorem first_nil : first [] = 0 := rfl

@[simp] theorem first_cons (byte : UInt8) (rest : Bytes) : first (byte :: rest) = byte := rfl

/-- The bytes before the terminator. -/
def text (block : Bytes) : Bytes :=
  block.takeWhile (fun byte => byte ≠ 0)

@[simp] theorem text_nil : text [] = [] := rfl

theorem text_cons (byte : UInt8) (rest : Bytes) :
    text (byte :: rest) = if byte = 0 then [] else byte :: text rest := by
  by_cases zero : byte = 0 <;> simp [text, zero]

theorem text_eq_nil_iff {block : Bytes} : text block = [] ↔ first block = 0 := by
  cases block with
  | nil => exact iff_of_true rfl rfl
  | cons byte rest =>
      rw [text_cons, first_cons]
      by_cases zero : byte = 0
      · exact iff_of_true (if_pos zero) zero
      · rw [if_neg zero]
        exact iff_of_false (List.cons_ne_nil _ _) zero

theorem text_eq_self {block : Bytes} (free : (0 : UInt8) ∉ block) : text block = block := by
  induction block with
  | nil => rfl
  | cons byte rest ih =>
      have nonzero : byte ≠ 0 := fun zero => free (zero ▸ List.mem_cons_self)
      rw [text_cons, if_neg nonzero, ih (fun member => free (List.mem_cons_of_mem _ member))]

theorem zero_not_mem_text (block : Bytes) : (0 : UInt8) ∉ text block := by
  induction block with
  | nil => exact List.not_mem_nil
  | cons byte rest ih =>
      rw [text_cons]
      by_cases zero : byte = 0
      · rw [if_pos zero]
        exact List.not_mem_nil
      · rw [if_neg zero]
        intro member
        rcases List.mem_cons.mp member with same | later
        · exact zero same.symm
        · exact ih later

/-- A text in front of a terminator. -/
theorem text_append_zero {block : Bytes} (free : (0 : UInt8) ∉ block) (rest : Bytes) :
    text (block ++ 0 :: rest) = block := by
  induction block with
  | nil => rfl
  | cons byte block ih =>
      have nonzero : byte ≠ 0 := fun zero => free (zero ▸ List.mem_cons_self)
      rw [List.cons_append, text_cons, if_neg nonzero,
        ih (fun member => free (List.mem_cons_of_mem _ member))]

/-- A terminated block is its text, the terminator and a rest. -/
theorem exists_terminator {block : Bytes} (terminated : (0 : UInt8) ∈ block) :
    ∃ rest, block = text block ++ 0 :: rest := by
  induction block with
  | nil => cases terminated
  | cons byte block ih =>
      rw [text_cons]
      by_cases zero : byte = 0
      · rw [if_pos zero, zero]
        exact ⟨block, rfl⟩
      · rw [if_neg zero]
        rcases List.mem_cons.mp terminated with same | later
        · exact absurd same.symm zero
        · rcases ih later with ⟨rest, split⟩
          refine ⟨rest, ?_⟩
          nth_rewrite 1 [split]
          rfl

@[simp] theorem text_text (block : Bytes) : text (text block) = text block :=
  text_eq_self (zero_not_mem_text block)

/-- ASCII upper-case letters go to their lower-case form. -/
def toAsciiLowercase (byte : UInt8) : UInt8 :=
  if 65 ≤ byte ∧ byte ≤ 90 then byte + 32 else byte

/-- A byte map under which exactly the terminator is mapped to the terminator.
Comparing the images of two strings then goes on for as long as comparing the strings. -/
def KeepsTerminator (fold : UInt8 -> UInt8) : Prop :=
  ∀ byte, fold byte = 0 ↔ byte = 0

theorem keepsTerminator_id : KeepsTerminator id := fun _ => Iff.rfl

theorem toNat_toAsciiLowercase (byte : UInt8) :
    (toAsciiLowercase byte).toNat =
      if 65 ≤ byte.toNat ∧ byte.toNat ≤ 90 then byte.toNat + 32 else byte.toNat := by
  simp only [toAsciiLowercase, UInt8.le_iff_toNat_le]
  by_cases upper : 65 ≤ byte.toNat ∧ byte.toNat ≤ 90
  · rw [if_pos (by simpa using upper), if_pos upper, UInt8.toNat_add]
    simp
    omega
  · rw [if_neg (by simpa using upper), if_neg upper]

/-- A byte that is neither a lower-case nor an upper-case letter is the only
one with its lower-case form. -/
theorem toAsciiLowercase_eq_iff {byte : UInt8} (symbol : byte.toNat < 65 ∨ 122 < byte.toNat)
    (other : UInt8) : toAsciiLowercase other = toAsciiLowercase byte ↔ other = byte := by
  rw [← UInt8.toNat_inj, ← UInt8.toNat_inj, toNat_toAsciiLowercase, toNat_toAsciiLowercase]
  split_ifs <;> omega

theorem keepsTerminator_toAsciiLowercase : KeepsTerminator toAsciiLowercase :=
  fun byte => @toAsciiLowercase_eq_iff 0 (by decide) byte

/-- The bytes as a comparison in the given case mode sees them. -/
def caseFold (caseSensitive : Bool) : UInt8 -> UInt8 :=
  if caseSensitive then id else toAsciiLowercase

theorem keepsTerminator_caseFold (caseSensitive : Bool) :
    KeepsTerminator (caseFold caseSensitive) := by
  cases caseSensitive
  · exact keepsTerminator_toAsciiLowercase
  · exact keepsTerminator_id

theorem caseFold_eq_iff {caseSensitive : Bool} {byte : UInt8}
    (symbol : byte.toNat < 65 ∨ 122 < byte.toNat) (other : UInt8) :
    caseFold caseSensitive other = caseFold caseSensitive byte ↔ other = byte := by
  cases caseSensitive
  · exact toAsciiLowercase_eq_iff symbol other
  · exact Iff.rfl

/-- The loop of `strcmp` on bytes seen through `fold`: the difference of the
first two bytes that differ, or `0` when both strings end together. -/
def compareBy (fold : UInt8 -> UInt8) : Bytes -> Bytes -> Int
  | [], right => (0 : Int) - (fold (first right)).toNat
  | byte :: left, right =>
      if fold byte ≠ fold (first right) ∨ byte = 0 then
        ((fold byte).toNat : Int) - (fold (first right)).toNat
      else compareBy fold left right.tail

/-- The text as the comparison sees it. -/
def folded (fold : UInt8 -> UInt8) (block : Bytes) : List Nat :=
  (text block).map (fun byte => (fold byte).toNat)

theorem folded_nil (fold : UInt8 -> UInt8) : folded fold [] = [] := rfl

theorem folded_cons (fold : UInt8 -> UInt8) (byte : UInt8) (rest : Bytes) :
    folded fold (byte :: rest) =
      if byte = 0 then [] else (fold byte).toNat :: folded fold rest := by
  by_cases zero : byte = 0 <;> simp [folded, text_cons, zero]

theorem folded_text (fold : UInt8 -> UInt8) (block : Bytes) :
    folded fold (text block) = folded fold block := by
  simp [folded]

private theorem toNat_ne_zero {byte : UInt8} (nonzero : byte ≠ 0) : 0 < byte.toNat := by
  apply Nat.pos_of_ne_zero
  intro zero
  exact nonzero (UInt8.toNat_inj.mp (by simpa using zero))

/-- The sign of the comparison is the lexicographic order of the folded texts. -/
theorem compareBy_spec {fold : UInt8 -> UInt8} (keeps : KeepsTerminator fold) (left right : Bytes) :
    (compareBy fold left right < 0 ↔ folded fold left < folded fold right) ∧
      (compareBy fold left right = 0 ↔ folded fold left = folded fold right) := by
  induction left generalizing right with
  | nil =>
      cases right with
      | nil => simp [compareBy, (keeps 0).mpr rfl, folded_nil]
      | cons other right =>
          by_cases ended : other = 0
          · subst ended
            simp [compareBy, (keeps 0).mpr rfl, folded_nil, folded_cons]
          · have positive := toNat_ne_zero (mt (keeps other).mp ended)
            rw [folded_cons, if_neg ended, folded_nil]
            simp only [compareBy, first_cons]
            constructor
            · exact ⟨fun _ => List.nil_lt_cons _ _, fun _ => by omega⟩
            · exact ⟨fun zero => by omega, fun impossible => by cases impossible⟩
  | cons byte left ih =>
      by_cases ended : byte = 0
      · subst ended
        cases right with
        | nil => simp [compareBy, (keeps 0).mpr rfl, folded_nil, folded_cons]
        | cons other right =>
            by_cases otherEnded : other = 0
            · subst otherEnded
              simp [compareBy, (keeps 0).mpr rfl, folded_cons]
            · have positive := toNat_ne_zero (mt (keeps other).mp otherEnded)
              rw [folded_cons, folded_cons, if_pos rfl, if_neg otherEnded]
              simp only [compareBy, first_cons, or_true, if_true, (keeps 0).mpr rfl]
              constructor
              · exact ⟨fun _ => List.nil_lt_cons _ _, fun _ => by simpa using positive⟩
              · refine ⟨fun zero => ?_, fun impossible => by cases impossible⟩
                simp at zero
                omega
      · have positive := toNat_ne_zero (mt (keeps byte).mp ended)
        rw [folded_cons, if_neg ended]
        by_cases same : fold byte = fold (first right)
        · have rightCons : ∃ other rest, right = other :: rest ∧ other ≠ 0 := by
            cases right with
            | nil => exact absurd ((keeps byte).mp (same.trans ((keeps 0).mpr rfl))) ended
            | cons other rest =>
                refine ⟨other, rest, rfl, fun zero => ?_⟩
                subst zero
                exact ended ((keeps byte).mp (same.trans ((keeps 0).mpr rfl)))
          obtain ⟨other, rest, rfl, otherNonzero⟩ := rightCons
          have step : compareBy fold (byte :: left) (other :: rest) = compareBy fold left rest := by
            rw [compareBy, if_neg (not_or.mpr ⟨not_not.mpr same, ended⟩)]
            rfl
          rw [step, folded_cons, if_neg otherNonzero]
          rw [first_cons] at same
          rw [same]
          refine ⟨(ih rest).1.trans ?_, (ih rest).2.trans ?_⟩
          · rw [List.cons_lt_cons_iff]
            simp
          · simp
        · have step : compareBy fold (byte :: left) right =
              ((fold byte).toNat : Int) - (fold (first right)).toNat := by
            rw [compareBy, if_pos (Or.inl same)]
          have different : (fold byte).toNat ≠ (fold (first right)).toNat :=
            fun equal => same (UInt8.toNat_inj.mp equal)
          rw [step]
          cases right with
          | nil =>
              rw [first_nil, (keeps 0).mpr rfl] at *
              rw [folded_nil]
              constructor
              · refine ⟨fun negative => ?_, fun impossible => absurd impossible (List.not_lt_nil _)⟩
                simp at negative
                omega
              · refine ⟨fun zero => ?_, fun impossible => by cases impossible⟩
                simp at zero
                exact absurd zero (by simpa using different)
          | cons other rest =>
              rw [first_cons] at *
              by_cases otherEnded : other = 0
              · subst otherEnded
                rw [folded_cons, if_pos rfl, (keeps 0).mpr rfl]
                constructor
                · refine ⟨fun negative => ?_, fun impossible => absurd impossible (List.not_lt_nil _)⟩
                  simp at negative
                  omega
                · refine ⟨fun zero => ?_, fun impossible => by cases impossible⟩
                  have zeroNat : (fold byte).toNat = 0 := by simpa using zero
                  omega
              · rw [folded_cons, if_neg otherEnded, List.cons_lt_cons_iff]
                constructor
                · constructor
                  · intro negative
                    exact Or.inl (by omega)
                  · rintro (smaller | ⟨equal, _⟩)
                    · omega
                    · exact absurd equal different
                · constructor
                  · intro zero
                    omega
                  · intro equal
                    exact absurd (List.cons.inj equal).1 different

end CString
end CJson
