import CJson.Library.CString

/-!
# Minifying in place

`cjson_minify` rewrites a text in its own memory: one cursor reads, another one
writes behind it, and short inner loops step over comments and strings.  What
it computes is a transducer on bytes, with a mode for each place those loops
can be in.  The transducer is the specification here; the pointer code refines
it because the written part never reaches a byte that is still to be read.

In a string the code looks for a quote without a backslash directly in front.
It does not ask whether that backslash is escaped itself.
-/

namespace CJson

open CString

/-- The byte at an index of a block. -/
def byteAt (block : Bytes) (index : Nat) : UInt8 := first (block.drop index)

/-- The loop of `skip_oneline_comment`: up to the terminator, or past the end of the
line. -/
def skipOnelineLoop (block : Bytes) : Nat -> Nat -> Nat
  | 0, input => input
  | fuel + 1, input =>
      if byteAt block input = 0 then input
      else if byteAt block input = 0x0A then input + 1
      else skipOnelineLoop block fuel (input + 1)

/-- `skip_oneline_comment`. -/
def skipOnelineComment (block : Bytes) (input : Nat) : Nat :=
  skipOnelineLoop block block.length (input + 2)

/-- The loop of `skip_multiline_comment`: up to the terminator, or past the two bytes
that close the comment.  An open comment swallows the rest of the text. -/
def skipMultilineLoop (block : Bytes) : Nat -> Nat -> Nat
  | 0, input => input
  | fuel + 1, input =>
      if byteAt block input = 0 then input
      else if byteAt block input = 0x2A ∧ byteAt block (input + 1) = 0x2F then input + 2
      else skipMultilineLoop block fuel (input + 1)

/-- `skip_multiline_comment`. -/
def skipMultilineComment (block : Bytes) (input : Nat) : Nat :=
  skipMultilineLoop block block.length (input + 2)

/-- The loop of `minify_string`: the block and the two cursors.  An escaped quote is
copied along with its backslash; a backslash in front of another backslash is not told
from any other byte. -/
def minifyStringLoop : Nat -> Bytes -> Nat -> Nat -> Bytes × Nat × Nat
  | 0, block, input, output => (block, input, output)
  | fuel + 1, block, input, output =>
      if byteAt block input = 0 then (block, input, output)
      else
        let block := block.set output (byteAt block input)
        if byteAt block input = 0x22 then (block, input + 1, output + 1)
        else if byteAt block input = 0x5C ∧ byteAt block (input + 1) = 0x22 then
          minifyStringLoop fuel (block.set (output + 1) (byteAt block (input + 1)))
            (input + 2) (output + 2)
        else minifyStringLoop fuel block (input + 1) (output + 1)

/-- `minify_string`. -/
def minifyString (block : Bytes) (input output : Nat) : Bytes × Nat × Nat :=
  minifyStringLoop block.length (block.set output (byteAt block input)) (input + 1) (output + 1)

/-- The bytes `cjson_minify` drops between tokens. -/
def isMinifiedBlank (byte : UInt8) : Bool :=
  byte == 0x20 || byte == 0x09 || byte == 0x0D || byte == 0x0A

/-- The loop of `cjson_minify`, which reads and writes the same block.  Blanks are
dropped, comments are skipped, string literals are copied, and a slash that opens no
comment is dropped as well. -/
def cjsonMinifyLoop : Nat -> Bytes -> Nat -> Nat -> Bytes × Nat
  | 0, block, _, into => (block, into)
  | fuel + 1, block, json, into =>
      if byteAt block json = 0 then (block, into)
      else if isMinifiedBlank (byteAt block json) then cjsonMinifyLoop fuel block (json + 1) into
      else if byteAt block json = 0x2F then
        if byteAt block (json + 1) = 0x2F then
          cjsonMinifyLoop fuel block (skipOnelineComment block json) into
        else if byteAt block (json + 1) = 0x2A then
          cjsonMinifyLoop fuel block (skipMultilineComment block json) into
        else cjsonMinifyLoop fuel block (json + 1) into
      else if byteAt block json = 0x22 then
        match minifyString block json into with
        | (block, json, into) => cjsonMinifyLoop fuel block json into
      else cjsonMinifyLoop fuel (block.set into (byteAt block json)) (json + 1) (into + 1)

/-- `cjson_minify` on a block of memory. -/
def cjsonMinify (json : Bytes) : Bytes :=
  match cjsonMinifyLoop json.length json 0 0 with
  | (block, into) => block.set into 0

/-! ## The cursors on the way -/

/-- The read cursor and the write cursor, as offsets in the one block that is read and
written. -/
structure Cursors where
  json : Nat
  into : Nat
  deriving DecidableEq, Repr

/-- `skip_oneline_comment` with the cursors at each test of its loop. -/
def skipOnelineTraced (block : Bytes) (output : Nat) : Nat -> Nat -> Nat × List Cursors
  | 0, input => (input, [])
  | fuel + 1, input =>
      if byteAt block input = 0 then (input, [⟨input, output⟩])
      else if byteAt block input = 0x0A then (input + 1, [⟨input, output⟩])
      else
        let run := skipOnelineTraced block output fuel (input + 1)
        (run.1, ⟨input, output⟩ :: run.2)

/-- `skip_multiline_comment` with the cursors at each test of its loop. -/
def skipMultilineTraced (block : Bytes) (output : Nat) : Nat -> Nat -> Nat × List Cursors
  | 0, input => (input, [])
  | fuel + 1, input =>
      if byteAt block input = 0 then (input, [⟨input, output⟩])
      else if byteAt block input = 0x2A ∧ byteAt block (input + 1) = 0x2F then
        (input + 2, [⟨input, output⟩])
      else
        let run := skipMultilineTraced block output fuel (input + 1)
        (run.1, ⟨input, output⟩ :: run.2)

/-- `minify_string` with the cursors at each test of its loop. -/
def minifyStringTraced : Nat -> Bytes -> Nat -> Nat -> (Bytes × Nat × Nat) × List Cursors
  | 0, block, input, output => ((block, input, output), [])
  | fuel + 1, block, input, output =>
      if byteAt block input = 0 then ((block, input, output), [⟨input, output⟩])
      else
        let block := block.set output (byteAt block input)
        if byteAt block input = 0x22 then ((block, input + 1, output + 1), [⟨input, output⟩])
        else if byteAt block input = 0x5C ∧ byteAt block (input + 1) = 0x22 then
          let run := minifyStringTraced fuel (block.set (output + 1) (byteAt block (input + 1)))
            (input + 2) (output + 2)
          (run.1, ⟨input, output⟩ :: run.2)
        else
          let run := minifyStringTraced fuel block (input + 1) (output + 1)
          (run.1, ⟨input, output⟩ :: run.2)

/-- `cjson_minify` with the cursors at each test of each loop. -/
def cjsonMinifyTraced : Nat -> Bytes -> Nat -> Nat -> (Bytes × Nat) × List Cursors
  | 0, block, _, into => ((block, into), [])
  | fuel + 1, block, json, into =>
      if byteAt block json = 0 then ((block, into), [⟨json, into⟩])
      else if isMinifiedBlank (byteAt block json) then
        let run := cjsonMinifyTraced fuel block (json + 1) into
        (run.1, ⟨json, into⟩ :: run.2)
      else if byteAt block json = 0x2F then
        if byteAt block (json + 1) = 0x2F then
          let comment := skipOnelineTraced block into block.length (json + 2)
          let run := cjsonMinifyTraced fuel block comment.1 into
          (run.1, ⟨json, into⟩ :: (comment.2 ++ run.2))
        else if byteAt block (json + 1) = 0x2A then
          let comment := skipMultilineTraced block into block.length (json + 2)
          let run := cjsonMinifyTraced fuel block comment.1 into
          (run.1, ⟨json, into⟩ :: (comment.2 ++ run.2))
        else
          let run := cjsonMinifyTraced fuel block (json + 1) into
          (run.1, ⟨json, into⟩ :: run.2)
      else if byteAt block json = 0x22 then
        let string := minifyStringTraced block.length (block.set into (byteAt block json))
          (json + 1) (into + 1)
        let run := cjsonMinifyTraced fuel string.1.1 string.1.2.1 string.1.2.2
        (run.1, ⟨json, into⟩ :: (string.2 ++ run.2))
      else
        let run := cjsonMinifyTraced fuel (block.set into (byteAt block json)) (json + 1) (into + 1)
        (run.1, ⟨json, into⟩ :: run.2)

theorem skipOnelineTraced_fst (block : Bytes) (output fuel input : Nat) :
    (skipOnelineTraced block output fuel input).1 = skipOnelineLoop block fuel input := by
  induction fuel generalizing input with
  | zero => rfl
  | succ fuel hypothesis =>
      rw [skipOnelineTraced, skipOnelineLoop, ← hypothesis]
      split_ifs <;> rfl

theorem skipMultilineTraced_fst (block : Bytes) (output fuel input : Nat) :
    (skipMultilineTraced block output fuel input).1 = skipMultilineLoop block fuel input := by
  induction fuel generalizing input with
  | zero => rfl
  | succ fuel hypothesis =>
      rw [skipMultilineTraced, skipMultilineLoop, ← hypothesis]
      split_ifs <;> rfl

theorem minifyStringTraced_fst (fuel : Nat) (block : Bytes) (input output : Nat) :
    (minifyStringTraced fuel block input output).1 = minifyStringLoop fuel block input output := by
  induction fuel generalizing block input output with
  | zero => rfl
  | succ fuel hypothesis =>
      rw [minifyStringTraced, minifyStringLoop]
      simp only [← hypothesis]
      split_ifs <;> rfl

/-- Recording the cursors does not change what is computed. -/
theorem cjsonMinifyTraced_fst (fuel : Nat) (block : Bytes) (json into : Nat) :
    (cjsonMinifyTraced fuel block json into).1 = cjsonMinifyLoop fuel block json into := by
  induction fuel generalizing block json into with
  | zero => rfl
  | succ fuel hypothesis =>
      rw [cjsonMinifyTraced, cjsonMinifyLoop, minifyString, skipOnelineComment, skipMultilineComment,
        ← minifyStringTraced_fst, ← @skipOnelineTraced_fst block into, ← @skipMultilineTraced_fst block into]
      simp only [← hypothesis]
      split_ifs <;> rfl

/-! ## The transducer -/

/-- Where minifying is: between tokens, behind a slash, in a comment (behind a star or
not), or in a string (behind a backslash or not).  The functions of the source are
loops in loops; what they do to a text is what this automaton does. -/
inductive MinifyMode where
  | outside
  | slash
  | line
  | block (star : Bool)
  | string (backslash : Bool)
  deriving DecidableEq

namespace MinifyMode

/-- The mode behind a byte.  A quote ends a string literal unless a backslash stands
right before it, whatever stands before that backslash. -/
def step : MinifyMode -> UInt8 -> MinifyMode
  | outside, byte =>
      if byte = 0x2F then slash else if byte = 0x22 then string false else outside
  | slash, byte =>
      if byte = 0x2F then line
      else if byte = 0x2A then block false
      else if byte = 0x22 then string false
      else outside
  | line, byte => if byte = 0x0A then outside else line
  | block star, byte => if star ∧ byte = 0x2F then outside else block (byte == 0x2A)
  | string backslash, byte =>
      if byte = 0x22 then (if backslash then string false else outside)
      else string (byte == 0x5C)

/-- Whether a byte is kept: every byte of a string literal, none of a comment, and
outside of both what is neither a blank nor a slash. -/
def keeps : MinifyMode -> UInt8 -> Bool
  | outside, byte => !isMinifiedBlank byte && byte != 0x2F
  | slash, byte => !isMinifiedBlank byte && byte != 0x2F && byte != 0x2A
  | line, _ => false
  | block _, _ => false
  | string _, _ => true

/-- The mode behind a text. -/
def run (mode : MinifyMode) (text : Bytes) : MinifyMode := text.foldl step mode

/-- The bytes of a text that are kept. -/
def emit : MinifyMode -> Bytes -> Bytes
  | _, [] => []
  | mode, byte :: rest =>
      if mode.keeps byte then byte :: emit (mode.step byte) rest else emit (mode.step byte) rest

@[simp] theorem emit_nil (mode : MinifyMode) : mode.emit [] = [] := by
  cases mode <;> rfl

theorem emit_cons (mode : MinifyMode) (byte : UInt8) (rest : Bytes) :
    mode.emit (byte :: rest) =
      if mode.keeps byte then byte :: (mode.step byte).emit rest else (mode.step byte).emit rest := by
  rw [emit]

theorem emit_line_cons (byte : UInt8) (rest : Bytes) :
    line.emit (byte :: rest) = (line.step byte).emit rest := rfl

theorem emit_block_cons (star : Bool) (byte : UInt8) (rest : Bytes) :
    (block star).emit (byte :: rest) = ((block star).step byte).emit rest := rfl

theorem emit_string_cons (backslash : Bool) (byte : UInt8) (rest : Bytes) :
    (string backslash).emit (byte :: rest) = byte :: ((string backslash).step byte).emit rest := rfl

@[simp] theorem run_nil (mode : MinifyMode) : mode.run [] = mode := rfl

@[simp] theorem run_cons (mode : MinifyMode) (byte : UInt8) (rest : Bytes) :
    mode.run (byte :: rest) = (mode.step byte).run rest := rfl

theorem run_append (mode : MinifyMode) (text rest : Bytes) :
    mode.run (text ++ rest) = (mode.run text).run rest := by
  rw [run, run, run, List.foldl_append]

theorem emit_append (mode : MinifyMode) (text rest : Bytes) :
    mode.emit (text ++ rest) = mode.emit text ++ (mode.run text).emit rest := by
  induction text generalizing mode with
  | nil => rw [List.nil_append, emit_nil, List.nil_append, run_nil]
  | cons byte text hypothesis =>
      rw [List.cons_append, emit_cons, emit_cons, hypothesis, run_cons]
      split
      · rfl
      · rfl

/-- What is kept was there. -/
theorem mem_of_mem_emit {mode : MinifyMode} {text : Bytes} {byte : UInt8}
    (kept : byte ∈ mode.emit text) : byte ∈ text := by
  induction text generalizing mode with
  | nil =>
      rw [emit_nil] at kept
      exact kept
  | cons other text hypothesis =>
      rw [emit_cons] at kept
      split at kept
      · rcases List.mem_cons.mp kept with same | later
        · rw [same]
          exact List.mem_cons_self
        · exact List.mem_cons_of_mem _ (hypothesis later)
      · exact List.mem_cons_of_mem _ (hypothesis kept)

/-- Where the transducer is when it reads what it has kept itself: there are no
comments and no slashes any more. -/
def resume : MinifyMode -> MinifyMode
  | string backslash => string backslash
  | _ => outside

theorem resume_of_keeps {mode : MinifyMode} {byte : UInt8} (kept : mode.keeps byte = true) :
    mode.resume.keeps byte = true ∧ mode.resume.step byte = (mode.step byte).resume := by
  cases mode with
  | outside =>
      refine ⟨kept, ?_⟩
      simp only [keeps, Bool.and_eq_true, bne_iff_ne] at kept
      simp only [resume, step, kept.2, if_false]
      split_ifs <;> rfl
  | slash =>
      simp only [keeps, Bool.and_eq_true, bne_iff_ne, Bool.not_eq_true'] at kept
      simp only [resume, step, keeps, kept.1.1, kept.1.2, kept.2, if_false]
      refine ⟨by simp [kept.1.2], ?_⟩
      split_ifs <;> rfl
  | line => cases kept
  | block star => cases kept
  | string backslash =>
      refine ⟨rfl, ?_⟩
      simp only [resume, step]
      split_ifs <;> rfl

theorem resume_of_not_keeps {mode : MinifyMode} {byte : UInt8} (dropped : ¬ mode.keeps byte = true) :
    (mode.step byte).resume = mode.resume := by
  have notQuote : (mode = outside ∨ mode = slash) -> byte ≠ 0x22 := by
    rintro (rfl | rfl) rfl
    · exact dropped rfl
    · exact dropped rfl
  cases mode with
  | outside =>
      simp only [step, notQuote (Or.inl rfl), if_false]
      split_ifs <;> rfl
  | slash =>
      simp only [step, notQuote (Or.inr rfl), if_false]
      split_ifs <;> rfl
  | line =>
      simp only [step]
      split_ifs <;> rfl
  | block star =>
      simp only [step]
      split_ifs <;> rfl
  | string backslash => exact absurd rfl dropped

/-- The transducer keeps everything that it has kept once. -/
theorem emit_emit (mode : MinifyMode) (text : Bytes) : mode.resume.emit (mode.emit text) = mode.emit text := by
  induction text generalizing mode with
  | nil => rw [emit_nil, emit_nil]
  | cons byte text hypothesis =>
      rw [emit_cons]
      by_cases kept : mode.keeps byte = true
      · obtain ⟨again, next⟩ := resume_of_keeps kept
        rw [if_pos kept, emit_cons, if_pos again, next, hypothesis]
      · rw [if_neg kept, ← resume_of_not_keeps kept, hypothesis]

/-- A star that is not followed by a slash has no effect. -/
theorem emit_block_star {text : Bytes} (noSlash : first text ≠ 0x2F) :
    (block true).emit text = (block false).emit text := by
  cases text with
  | nil => rw [emit_nil, emit_nil]
  | cons byte text =>
      rw [first_cons] at noSlash
      rw [emit_cons, emit_cons]
      simp only [keeps, step, noSlash, and_false, if_false]

/-- A backslash that is not followed by a quote has no effect. -/
theorem emit_string_backslash {text : Bytes} (noQuote : first text ≠ 0x22) :
    (string true).emit text = (string false).emit text := by
  cases text with
  | nil => rw [emit_nil, emit_nil]
  | cons byte text =>
      rw [first_cons] at noQuote
      rw [emit_cons, emit_cons]
      simp only [keeps, step, noQuote, if_false]

end MinifyMode

/-! ## The refinement -/

/-- A block in the middle of the work: `kept` has been written, the read cursor is at
`text`, and what lies between has been read.  The write cursor is never in front of
the read cursor, and the terminator is still ahead. -/
structure Minifying (kept text rest block : Bytes) (input output : Nat) : Prop where
  output_eq : output = kept.length
  split : ∃ used, block = kept ++ (used ++ (text ++ 0 :: rest)) ∧ input = output + used.length

namespace Minifying

variable {kept text rest block : Bytes} {input output : Nat} {byte : UInt8}

theorem byteAt_input (state : Minifying kept text rest block input output) :
    byteAt block input = first text := by
  rcases state with ⟨rfl, used, rfl, rfl⟩
  rw [byteAt, ← List.drop_drop, List.drop_left, List.drop_left]
  cases text with
  | nil => rfl
  | cons byte text => rfl

theorem byteAt_next (state : Minifying kept (byte :: text) rest block input output) :
    byteAt block (input + 1) = first text := by
  rcases state with ⟨rfl, used, rfl, rfl⟩
  rw [byteAt, ← List.drop_drop, ← List.drop_drop, List.drop_left, List.drop_left]
  cases text with
  | nil => rfl
  | cons byte text => rfl

/-- A byte that is read and not written. -/
theorem drop (state : Minifying kept (byte :: text) rest block input output) :
    Minifying kept text rest block (input + 1) output := by
  rcases state with ⟨same, used, blockEq, inputEq⟩
  refine ⟨same, used ++ [byte], ?_, ?_⟩
  · rw [blockEq]
    simp
  · rw [inputEq, List.length_append, List.length_singleton, Nat.add_assoc]

/-- A byte that is read and written: the write hits a byte that has been read
already, or the byte itself. -/
theorem copy (state : Minifying kept (byte :: text) rest block input output) :
    Minifying (kept ++ [byte]) text rest (block.set output byte) (input + 1) (output + 1) := by
  rcases state with ⟨rfl, used, rfl, rfl⟩
  refine ⟨by simp, ?_⟩
  cases used with
  | nil =>
      refine ⟨[], ?_, rfl⟩
      rw [List.set_append_right _ _ (Nat.le_refl _), Nat.sub_self]
      simp
  | cons old used =>
      refine ⟨used ++ [byte], ?_, ?_⟩
      · rw [List.set_append_right _ _ (Nat.le_refl _), Nat.sub_self]
        simp
      · simp only [List.length_cons, List.length_append, List.length_nil]
        omega

/-- Writing the byte at the read cursor does not change what is read there. -/
theorem byteAt_copied (state : Minifying kept (byte :: text) rest block input output) :
    byteAt (block.set output byte) input = byte ∧
      byteAt (block.set output byte) (input + 1) = first text := by
  constructor
  · have before := state.byteAt_input
    rcases state with ⟨rfl, used, rfl, rfl⟩
    cases used with
    | nil =>
        rw [List.set_append_right _ _ (Nat.le_refl _), Nat.sub_self, byteAt, ← List.drop_drop,
          List.drop_left]
        rfl
    | cons old used =>
        rw [List.set_append_right _ _ (Nat.le_refl _), Nat.sub_self, byteAt, ← List.drop_drop,
          List.drop_left]
        show first ((byte :: (used ++ (byte :: text ++ 0 :: rest))).drop (used.length + 1)) = byte
        rw [List.drop_succ_cons, List.drop_left]
        rfl
  · exact state.copy.byteAt_input

end Minifying

open MinifyMode

section Refinement

variable {kept text rest block : Bytes} {input output : Nat}

/-- At each of these cursors the work was in good order, in a block of this size.  The
cursors are those at which the loops of the source test for the end. -/
def Visits (rest : Bytes) (size : Nat) (cursors : List Cursors) : Prop :=
  ∀ place ∈ cursors, ∃ kept text block, Minifying kept text rest block place.json place.into ∧
    block.length = size

namespace Visits

theorem single {size : Nat} (state : Minifying kept text rest block input output)
    (same : block.length = size) : Visits rest size [⟨input, output⟩] := by
  intro place inside
  rw [List.mem_singleton.mp inside]
  exact ⟨kept, text, block, state, same⟩

theorem cons {size : Nat} {cursors : List Cursors} (state : Minifying kept text rest block input output)
    (same : block.length = size) (later : Visits rest size cursors) :
    Visits rest size (⟨input, output⟩ :: cursors) := by
  intro place inside
  rcases List.mem_cons.mp inside with rfl | after
  · exact ⟨kept, text, block, state, same⟩
  · exact later place after

theorem append {size : Nat} {first second : List Cursors} (before : Visits rest size first)
    (after : Visits rest size second) : Visits rest size (first ++ second) := by
  intro place inside
  rcases List.mem_append.mp inside with early | late
  · exact before place early
  · exact after place late

end Visits

theorem skipOnelineTraced_refines {fuel : Nat} (nulFree : (0 : UInt8) ∉ text)
    (state : Minifying kept text rest block input output) (enough : text.length ≤ fuel) :
    ∃ after, Minifying kept after rest block (skipOnelineTraced block output fuel input).1 output ∧
      line.emit text = outside.emit after ∧ after <:+ text ∧
        Visits rest block.length (skipOnelineTraced block output fuel input).2 := by
  induction fuel generalizing text input with
  | zero =>
      have empty : text = [] := List.length_eq_zero_iff.mp (Nat.le_zero.mp enough)
      subst empty
      exact ⟨[], state, by rw [emit_nil, emit_nil], List.suffix_rfl, fun _ => List.not_mem_nil.elim⟩
  | succ fuel hypothesis =>
      rw [skipOnelineTraced, state.byteAt_input]
      cases text with
      | nil => exact ⟨[], state, by rw [emit_nil, emit_nil], List.suffix_rfl, .single state rfl⟩
      | cons byte text =>
          have nonzero : byte ≠ 0 := fun same => nulFree (same ▸ List.mem_cons_self)
          have tailFree : (0 : UInt8) ∉ text := fun inside => nulFree (List.mem_cons_of_mem _ inside)
          rw [first_cons, if_neg nonzero, emit_line_cons]
          by_cases newline : byte = 0x0A
          · rw [if_pos newline]
            exact ⟨text, state.drop, by rw [step, if_pos newline], List.suffix_cons _ _, .single state rfl⟩
          · rw [if_neg newline, step, if_neg newline]
            rcases hypothesis tailFree state.drop (Nat.le_of_succ_le_succ enough) with
              ⟨after, reached, same, suffix, visits⟩
            exact ⟨after, reached, same, suffix.trans (List.suffix_cons _ _), .cons state rfl visits⟩

theorem skipMultilineTraced_refines {fuel : Nat} (nulFree : (0 : UInt8) ∉ text)
    (state : Minifying kept text rest block input output) (enough : text.length ≤ fuel) :
    ∃ after, Minifying kept after rest block (skipMultilineTraced block output fuel input).1 output ∧
      (MinifyMode.block false).emit text = outside.emit after ∧ after <:+ text ∧
        Visits rest block.length (skipMultilineTraced block output fuel input).2 := by
  induction fuel generalizing text input with
  | zero =>
      have empty : text = [] := List.length_eq_zero_iff.mp (Nat.le_zero.mp enough)
      subst empty
      exact ⟨[], state, by rw [emit_nil, emit_nil], List.suffix_rfl, fun _ => List.not_mem_nil.elim⟩
  | succ fuel hypothesis =>
      rw [skipMultilineTraced, state.byteAt_input]
      cases text with
      | nil => exact ⟨[], state, by rw [emit_nil, emit_nil], List.suffix_rfl, .single state rfl⟩
      | cons byte text =>
          have nonzero : byte ≠ 0 := fun same => nulFree (same ▸ List.mem_cons_self)
          have tailFree : (0 : UInt8) ∉ text := fun inside => nulFree (List.mem_cons_of_mem _ inside)
          have next : (MinifyMode.block false).step byte = MinifyMode.block (byte == 0x2A) := by
            simp [step]
          rw [first_cons, if_neg nonzero, state.byteAt_next, emit_block_cons, next]
          by_cases closes : byte = 0x2A ∧ first text = 0x2F
          · rw [if_pos closes]
            rcases closes with ⟨rfl, slash⟩
            cases text with
            | nil => exact absurd slash (by decide)
            | cons next text =>
                rw [first_cons] at slash
                subst slash
                refine ⟨text, state.drop.drop, ?_,
                  (List.suffix_cons _ _).trans (List.suffix_cons _ _), .single state rfl⟩
                rfl
          · rw [if_neg closes]
            rcases hypothesis tailFree state.drop (Nat.le_of_succ_le_succ enough) with
              ⟨after, reached, same, suffix, visits⟩
            refine ⟨after, reached, ?_, suffix.trans (List.suffix_cons _ _), .cons state rfl visits⟩
            rw [← same]
            by_cases star : byte = 0x2A
            · subst star
              exact emit_block_star (fun slash => closes ⟨rfl, slash⟩)
            · rw [beq_eq_false_iff_ne.mpr star]

theorem minifyStringTraced_refines {fuel : Nat} (nulFree : (0 : UInt8) ∉ text)
    (state : Minifying kept text rest block input output) (enough : text.length ≤ fuel) :
    ∃ copied after newBlock newInput newOutput visits,
      minifyStringTraced fuel block input output = ((newBlock, newInput, newOutput), visits) ∧
      Minifying (kept ++ copied) after rest newBlock newInput newOutput ∧
      (string false).emit text = copied ++ outside.emit after ∧ after <:+ text ∧
      newBlock.length = block.length ∧ Visits rest block.length visits := by
  induction fuel generalizing text kept block input output with
  | zero =>
      have empty : text = [] := List.length_eq_zero_iff.mp (Nat.le_zero.mp enough)
      subst empty
      exact ⟨[], [], block, input, output, [], rfl, by rw [List.append_nil]; exact state,
        by rw [emit_nil, emit_nil, List.append_nil], List.suffix_rfl, rfl, fun _ => List.not_mem_nil.elim⟩
  | succ fuel hypothesis =>
      rw [minifyStringTraced, state.byteAt_input]
      cases text with
      | nil =>
          exact ⟨[], [], block, input, output, _, rfl, by rw [List.append_nil]; exact state,
            by rw [emit_nil, emit_nil, List.append_nil], List.suffix_rfl, rfl, .single state rfl⟩
      | cons byte text =>
          have nonzero : byte ≠ 0 := fun same => nulFree (same ▸ List.mem_cons_self)
          have tailFree : (0 : UInt8) ∉ text :=
            fun inside => nulFree (List.mem_cons_of_mem _ inside)
          have shorter := Nat.le_of_succ_le_succ enough
          rw [first_cons, if_neg nonzero]
          dsimp only
          rw [state.byteAt_copied.1, state.byteAt_copied.2, emit_string_cons]
          by_cases quote : byte = 0x22
          · rw [if_pos quote]
            exact ⟨[byte], text, _, _, _, _, rfl, state.copy,
              by rw [step, if_pos quote]; rfl, List.suffix_cons _ _, List.length_set, .single state rfl⟩
          rw [if_neg quote, step, if_neg quote]
          by_cases escaped : byte = 0x5C ∧ first text = 0x22
          · rw [if_pos escaped]
            rcases escaped with ⟨rfl, isQuote⟩
            cases text with
            | nil => exact absurd isQuote (by decide)
            | cons next text =>
                rw [first_cons] at isQuote
                subst isQuote
                have nextFree : (0 : UInt8) ∉ text :=
                  fun inside => tailFree (List.mem_cons_of_mem _ inside)
                have covered : text.length ≤ fuel := by
                  rw [List.length_cons] at shorter
                  omega
                rcases hypothesis nextFree state.copy.copy covered with
                  ⟨copied, after, newBlock, newInput, newOutput, visits, run, reached, same, suffix, size, good⟩
                rw [List.length_set, List.length_set] at size good
                rw [first_cons, run]
                refine ⟨[0x5C, 0x22] ++ copied, after, newBlock, newInput, newOutput, _, rfl, ?_, ?_,
                  suffix.trans ((List.suffix_cons _ _).trans (List.suffix_cons _ _)), size,
                  .cons state rfl good⟩
                · have joined : kept ++ ([0x5C, 0x22] ++ copied) =
                      kept ++ [0x5C] ++ [0x22] ++ copied := by simp
                  rw [joined]
                  exact reached
                · show 0x5C :: 0x22 :: (string false).emit text = _
                  rw [same]
                  rfl
          · rw [if_neg escaped]
            rcases hypothesis tailFree state.copy shorter with
              ⟨copied, after, newBlock, newInput, newOutput, visits, run, reached, same, suffix, size, good⟩
            rw [List.length_set] at size good
            rw [run]
            refine ⟨byte :: copied, after, newBlock, newInput, newOutput, _, rfl, ?_, ?_,
              suffix.trans (List.suffix_cons _ _), size, .cons state rfl good⟩
            · have joined : kept ++ byte :: copied = kept ++ [byte] ++ copied := by simp
              rw [joined]
              exact reached
            · rw [List.cons_append, ← same]
              by_cases backslash : byte = 0x5C
              · subst backslash
                rw [show ((0x5C : UInt8) == 0x5C) = true from rfl,
                  emit_string_backslash (fun isQuote => escaped ⟨rfl, isQuote⟩)]
              · rw [beq_eq_false_iff_ne.mpr backslash]

/-- A comment is stepped over in one go: both cursors and what is left agree
with the transducer at the end of it. -/
theorem comment_refines {byte : UInt8} (nulFree : (0 : UInt8) ∉ text)
    (state : Minifying kept (0x2F :: byte :: text) rest block input output)
    (enough : text.length ≤ block.length) :
    (byte = 0x2F -> ∃ after,
      Minifying kept after rest block (skipOnelineTraced block output block.length (input + 2)).1 output ∧
      outside.emit (0x2F :: byte :: text) = outside.emit after ∧ after <:+ text ∧
        Visits rest block.length (skipOnelineTraced block output block.length (input + 2)).2) ∧
    (byte = 0x2A -> ∃ after,
      Minifying kept after rest block (skipMultilineTraced block output block.length (input + 2)).1 output ∧
      outside.emit (0x2F :: byte :: text) = outside.emit after ∧ after <:+ text ∧
        Visits rest block.length (skipMultilineTraced block output block.length (input + 2)).2) := by
  constructor
  · rintro rfl
    rcases skipOnelineTraced_refines nulFree state.drop.drop enough with ⟨after, reached, same, rest⟩
    exact ⟨after, reached, same, rest⟩
  · rintro rfl
    rcases skipMultilineTraced_refines nulFree state.drop.drop enough with ⟨after, reached, same, rest⟩
    exact ⟨after, reached, same, rest⟩

/-- A slash that starts no comment is dropped. -/
theorem emit_slash {text : Bytes} (noLine : first text ≠ 0x2F) (noBlock : first text ≠ 0x2A) :
    outside.emit (0x2F :: text) = outside.emit text := by
  show slash.emit text = _
  cases text with
  | nil => rw [emit_nil, emit_nil]
  | cons byte text =>
      rw [first_cons] at noLine noBlock
      rw [emit_cons, emit_cons]
      simp [keeps, step, noLine, noBlock]

theorem Minifying.text_le {kept text rest block : Bytes} {input output : Nat}
    (state : Minifying kept text rest block input output) : text.length ≤ block.length := by
  rcases state with ⟨_, used, rfl, _⟩
  simp only [List.length_append, List.length_cons]
  omega

/-- The loop of `cjson_minify` copies what the transducer keeps, and it is at the
terminator when it stops. -/
theorem cjsonMinifyTraced_refines {fuel : Nat} (nulFree : (0 : UInt8) ∉ text)
    (state : Minifying kept text rest block input output) (enough : text.length < fuel) :
    ∃ newBlock newInput newOutput visits,
      cjsonMinifyTraced fuel block input output = ((newBlock, newOutput), visits) ∧
      Minifying (kept ++ outside.emit text) [] rest newBlock newInput newOutput ∧
      newBlock.length = block.length ∧ Visits rest block.length visits ∧
      visits.getLast? = some ⟨newInput, newOutput⟩ := by
  induction fuel generalizing text kept block input output with
  | zero => exact absurd enough (Nat.not_lt_zero _)
  | succ fuel hypothesis =>
      -- one more test in front of what the rest of the run visits
      have before : ∀ {first : List Cursors} {text kept newBlock : Bytes} {newInput newOutput : Nat},
          (0 : UInt8) ∉ text -> Minifying kept text rest newBlock newInput newOutput ->
          text.length < fuel -> newBlock.length = block.length -> Visits rest block.length first ->
          ∃ lastBlock lastInput lastOutput visits,
            cjsonMinifyTraced fuel newBlock newInput newOutput = ((lastBlock, lastOutput), visits) ∧
            Minifying (kept ++ outside.emit text) [] rest lastBlock lastInput lastOutput ∧
            lastBlock.length = block.length ∧ Visits rest block.length (first ++ visits) ∧
            (first ++ visits).getLast? = some ⟨lastInput, lastOutput⟩ := by
        intro first text kept newBlock newInput newOutput nulFree state shorter size good
        rcases hypothesis nulFree state shorter with
          ⟨lastBlock, lastInput, lastOutput, visits, run, final, lastSize, visited, last⟩
        rw [size] at lastSize visited
        refine ⟨lastBlock, lastInput, lastOutput, visits, run, final, lastSize, good.append visited, ?_⟩
        rw [List.getLast?_append, last]
        rfl
      have here : Visits rest block.length [⟨input, output⟩] := .single state rfl
      rw [cjsonMinifyTraced, state.byteAt_input]
      cases text with
      | nil =>
          refine ⟨block, input, output, _, rfl, ?_, rfl, here, rfl⟩
          rw [emit_nil, List.append_nil]
          exact state
      | cons byte text =>
          have nonzero : byte ≠ 0 := fun same => nulFree (same ▸ List.mem_cons_self)
          have tailFree : (0 : UInt8) ∉ text := fun inside => nulFree (List.mem_cons_of_mem _ inside)
          have shorter : text.length < fuel := Nat.lt_of_succ_lt_succ enough
          rw [first_cons, if_neg nonzero]
          by_cases blank : isMinifiedBlank byte = true
          · have notSlash : byte ≠ 0x2F := by
              rintro rfl
              exact absurd blank (by decide)
            have notQuote : byte ≠ 0x22 := by
              rintro rfl
              exact absurd blank (by decide)
            have same : outside.emit (byte :: text) = outside.emit text := by
              rw [emit_cons, if_neg (by simp [keeps, blank]), step, if_neg notSlash, if_neg notQuote]
            rw [if_pos blank, same]
            rcases before tailFree state.drop shorter rfl here with ⟨_, _, _, visits, run, final⟩
            exact ⟨_, _, _, _, by dsimp only; rw [run]; rfl, final⟩
          rw [if_neg blank]
          by_cases isSlash : byte = 0x2F
          · subst isSlash
            rw [if_pos rfl, state.byteAt_next]
            cases text with
            | nil =>
                rw [if_neg (by decide), if_neg (by decide), @emit_slash [] (by decide) (by decide)]
                rcases before tailFree state.drop shorter rfl here with ⟨_, _, _, visits, run, final⟩
                exact ⟨_, _, _, _, by dsimp only; rw [run]; rfl, final⟩
            | cons next text =>
                have nextFree : (0 : UInt8) ∉ text :=
                  fun inside => tailFree (List.mem_cons_of_mem _ inside)
                have comments := comment_refines nextFree state
                  (Nat.le_trans (Nat.le_succ _) state.drop.text_le)
                rw [first_cons]
                rw [List.length_cons] at shorter
                by_cases line : next = 0x2F
                · rw [if_pos line]
                  rcases comments.1 line with ⟨after, reached, same, suffix, good⟩
                  have bound := suffix.length_le
                  rcases before (fun inside => nextFree (suffix.subset inside)) reached (by omega) rfl
                    (here.append good) with ⟨_, _, _, visits, run, final⟩
                  rw [same]
                  exact ⟨_, _, _, _, by dsimp only; rw [run]; rfl, final⟩
                rw [if_neg line]
                by_cases block : next = 0x2A
                · rw [if_pos block]
                  rcases comments.2 block with ⟨after, reached, same, suffix, good⟩
                  have bound := suffix.length_le
                  rcases before (fun inside => nextFree (suffix.subset inside)) reached (by omega) rfl
                    (here.append good) with ⟨_, _, _, visits, run, final⟩
                  rw [same]
                  exact ⟨_, _, _, _, by dsimp only; rw [run]; rfl, final⟩
                · rw [if_neg block, @emit_slash (next :: text) line block]
                  rcases before tailFree state.drop shorter rfl here with ⟨_, _, _, visits, run, final⟩
                  exact ⟨_, _, _, _, by dsimp only; rw [run]; rfl, final⟩
          rw [if_neg isSlash]
          by_cases quote : byte = 0x22
          · subst quote
            have covered : text.length ≤ block.length :=
              Nat.le_trans (Nat.le_succ _) state.text_le
            rcases minifyStringTraced_refines tailFree state.copy covered with
              ⟨copied, after, newBlock, newInput, newOutput, string, scanned, reached, same, suffix, size, good⟩
            rw [List.length_set] at size good
            have bound := suffix.length_le
            rcases before (fun inside => tailFree (suffix.subset inside)) reached (by omega) size
              (here.append good) with ⟨lastBlock, lastInput, lastOutput, visits, run, final⟩
            rw [if_pos rfl, scanned]
            refine ⟨lastBlock, lastInput, lastOutput, _, by dsimp only; rw [run], ?_⟩
            have joined : kept ++ outside.emit (0x22 :: text) =
                kept ++ [0x22] ++ copied ++ outside.emit after := by
              show kept ++ 0x22 :: (MinifyMode.string false).emit text = _
              rw [same]
              simp
            rw [joined]
            exact final
          · rw [if_neg quote]
            have same : outside.emit (byte :: text) = byte :: outside.emit text := by
              rw [emit_cons, if_pos (by simp [keeps, blank, isSlash]), step, if_neg isSlash,
                if_neg quote]
            rcases before tailFree state.copy shorter List.length_set here with
              ⟨lastBlock, lastInput, lastOutput, visits, run, final⟩
            refine ⟨lastBlock, lastInput, lastOutput, _, by dsimp only; rw [run], ?_⟩
            rw [same]
            have joined : kept ++ byte :: outside.emit text = kept ++ [byte] ++ outside.emit text := by
              simp
            rw [joined]
            exact final

/-- A C string that is to be minified. -/
theorem Minifying.start {json : Bytes} (split : json = CString.text json ++ 0 :: rest) :
    Minifying [] (CString.text json) rest json 0 0 := by
  refine ⟨rfl, [], ?_, rfl⟩
  nth_rewrite 1 [split]
  rfl

/-- Minifying a C string in place: what is left in its block.  In front stands what
the transducer keeps, then a terminator, and behind it what was there before; both
cursors have come to the end of the text. -/
theorem cjsonMinify_eq {json : Bytes} (split : json = CString.text json ++ 0 :: rest) :
    ∃ used visits, (cjsonMinifyTraced json.length json 0 0).2 = visits ∧
      cjsonMinify json = (outside.emit (CString.text json) ++ (used ++ 0 :: rest)).set
        (outside.emit (CString.text json)).length 0 ∧
      (outside.emit (CString.text json)).length + used.length = (CString.text json).length ∧
      Visits rest json.length visits ∧
      visits.getLast? = some ⟨(CString.text json).length, (outside.emit (CString.text json)).length⟩ := by
  have nulFree := zero_not_mem_text json
  have size := congrArg List.length split
  rw [List.length_append, List.length_cons] at size
  rcases @cjsonMinifyTraced_refines _ _ _ _ _ _ json.length nulFree (Minifying.start split) (by omega) with
    ⟨newBlock, newInput, newOutput, visits, finished, ⟨outputEq, used, blockEq, inputEq⟩, same, good, last⟩
  rw [List.nil_append] at outputEq blockEq
  rw [blockEq, List.length_append, List.length_append, List.nil_append, List.length_cons] at same
  have stops : newInput = (CString.text json).length := by omega
  have computed := congrArg Prod.fst finished
  rw [cjsonMinifyTraced_fst] at computed
  rw [finished]
  refine ⟨used, visits, rfl, ?_, by omega, good, by rw [last, stops, outputEq]⟩
  rw [cjsonMinify, computed, ← outputEq, blockEq]
  rfl

/-- Minifying a C string in place leaves what the transducer keeps of it. -/
theorem text_cjsonMinify (json : Bytes) (terminated : (0 : UInt8) ∈ json) :
    CString.text (cjsonMinify json) = outside.emit (CString.text json) := by
  rcases exists_terminator terminated with ⟨rest, split⟩
  rcases cjsonMinify_eq split with ⟨used, _, _, minified, _⟩
  have keptFree : (0 : UInt8) ∉ outside.emit (CString.text json) :=
    fun inside => zero_not_mem_text json (mem_of_mem_emit inside)
  rw [minified, List.set_append_right _ _ (Nat.le_refl _), Nat.sub_self]
  cases used with
  | nil => exact text_append_zero keptFree _
  | cons old used => exact text_append_zero keptFree _

/-- Minifying a C string in place: the write cursor never passes the read cursor, the
read cursor stays in front of the terminator and ends there, what is left is what the
transducer keeps of the text, the memory behind the terminator is not touched, and
minifying the result again changes nothing. -/
theorem cjsonMinify_inPlace (json : Bytes) (terminated : (0 : UInt8) ∈ json) :
    (cjsonMinifyTraced json.length json 0 0).1 = cjsonMinifyLoop json.length json 0 0 ∧
      (∀ place ∈ (cjsonMinifyTraced json.length json 0 0).2,
        place.into ≤ place.json ∧ place.json ≤ (CString.text json).length) ∧
      (cjsonMinifyTraced json.length json 0 0).2.getLast?.map Cursors.json =
        some (CString.text json).length ∧
      CString.text (cjsonMinify json) = outside.emit (CString.text json) ∧
      (cjsonMinify json).drop ((CString.text json).length + 1) =
        json.drop ((CString.text json).length + 1) ∧
      cjsonMinify (cjsonMinify json) = cjsonMinify json := by
  have bound : ∀ {rest block : Bytes} {kept text : Bytes} {input output : Nat},
      Minifying kept text rest block input output -> output ≤ input ∧ input + rest.length + 1 ≤ block.length := by
    rintro rest block kept text input output ⟨rfl, used, rfl, rfl⟩
    simp only [List.length_append, List.length_cons]
    omega
  rcases exists_terminator terminated with ⟨rest, split⟩
  rcases cjsonMinify_eq split with ⟨used, visits, visited, minified, lengths, good, last⟩
  have size := congrArg List.length split
  rw [List.length_append, List.length_cons] at size
  refine ⟨cjsonMinifyTraced_fst _ _ _ _, ?_, ?_, text_cjsonMinify json terminated, ?_, ?_⟩
  · intro place inside
    rw [visited] at inside
    rcases good place inside with ⟨kept, text, block, state, same⟩
    have bounds := bound state
    omega
  · rw [visited, last]
    rfl
  · have behind : ∀ front : Bytes, front.length = (CString.text json).length ->
        (front ++ 0 :: rest).drop ((CString.text json).length + 1) = rest := by
      intro front same
      rw [← same, List.drop_length_add_append]
      rfl
    have original : json.drop ((CString.text json).length + 1) = rest :=
      (congrArg (List.drop _) split).trans (behind _ rfl)
    rw [original, minified, List.drop_set_of_lt (by omega), ← List.append_assoc, behind]
    rw [List.length_append, lengths]
  · -- the second run has nothing to drop, so its two cursors move together
    have kept : (outside.emit (CString.text (cjsonMinify json))) = CString.text (cjsonMinify json) := by
      rw [text_cjsonMinify json terminated]
      exact emit_emit outside (CString.text json)
    have inside : (outside.emit (CString.text json)).length <
        (outside.emit (CString.text json) ++ (used ++ 0 :: rest)).length := by
      rw [List.length_append, List.length_append, List.length_cons]
      omega
    have again : (0 : UInt8) ∈ cjsonMinify json := by
      rw [minified]
      exact List.mem_set inside 0
    rcases exists_terminator again with ⟨later, splitAgain⟩
    rcases cjsonMinify_eq splitAgain with ⟨between, _, _, same, noneLeft, _⟩
    have empty : between = [] := by
      rw [kept] at noneLeft
      exact List.length_eq_zero_iff.mp (Nat.add_eq_left.mp noneLeft)
    rw [same, kept, empty, List.nil_append, List.set_append_right _ _ (Nat.le_refl _), Nat.sub_self,
      List.set_cons_zero, ← splitAgain]

/-- The text `"\`, a string without an end whose last byte is a backslash. -/
theorem cjsonMinify_inPlace_pendingEscape :
    (cjsonMinifyTraced 3 [0x22, 0x5C, 0] 0 0).1 = cjsonMinifyLoop 3 [0x22, 0x5C, 0] 0 0 ∧
      (∀ place ∈ (cjsonMinifyTraced 3 [0x22, 0x5C, 0] 0 0).2,
        place.into ≤ place.json ∧ place.json ≤ (CString.text [0x22, 0x5C, 0]).length) ∧
      (cjsonMinifyTraced 3 [0x22, 0x5C, 0] 0 0).2.getLast?.map Cursors.json =
        some (CString.text [0x22, 0x5C, 0]).length ∧
      CString.text (cjsonMinify [0x22, 0x5C, 0]) = outside.emit (CString.text [0x22, 0x5C, 0]) ∧
      (cjsonMinify [0x22, 0x5C, 0]).drop ((CString.text [0x22, 0x5C, 0]).length + 1) =
        [0x22, 0x5C, 0].drop ((CString.text [0x22, 0x5C, 0]).length + 1) ∧
      cjsonMinify (cjsonMinify [0x22, 0x5C, 0]) = cjsonMinify [0x22, 0x5C, 0] :=
  cjsonMinify_inPlace [0x22, 0x5C, 0] (by decide)

end Refinement

end CJson
