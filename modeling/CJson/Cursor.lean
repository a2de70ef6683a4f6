import CJson.Parse
import CJson.Library.Returns

/-!
# What the cursor operations do

As long as the cursor is inside the buffer, each operation of the parser on it
is determined by the bytes that remain.  The equations here restate the
operations in those terms: none of them can fault, and each moves the cursor by
a number of bytes that the remaining bytes alone fix.
-/

namespace CJson

open CString

namespace ParseBuffer

/-- The buffer's memory is as long as it says, and the cursor is inside, or behind the
last byte.  Every function of the parser keeps this, and behind the guards of the
source it rules out each read outside of the memory. -/
structure Valid (buffer : ParseBuffer) : Prop where
  length_eq : buffer.length = buffer.content.length
  offset_le : buffer.offset ≤ buffer.length

/-- The bytes from the cursor on.  What the parser does depends on these alone, and on
whether the hooks grant its requests, so that most of what is proved of it is said of
`remaining`. -/
def remaining (buffer : ParseBuffer) : Bytes := buffer.content.drop buffer.offset

/-- The buffer with the cursor `count` bytes further on.  Where the source moves the
cursor behind a guard, this is what it leaves. -/
def skip (buffer : ParseBuffer) (count : Nat) : ParseBuffer :=
  { buffer with offset := buffer.offset + count }

/-- The buffer inside one more container. -/
def enter (buffer : ParseBuffer) : ParseBuffer := { buffer with depth := buffer.depth + 1 }

@[simp] theorem skip_content (buffer : ParseBuffer) (count : Nat) :
    (buffer.skip count).content = buffer.content := rfl

@[simp] theorem skip_length (buffer : ParseBuffer) (count : Nat) :
    (buffer.skip count).length = buffer.length := rfl

@[simp] theorem skip_offset (buffer : ParseBuffer) (count : Nat) :
    (buffer.skip count).offset = buffer.offset + count := rfl

@[simp] theorem skip_depth (buffer : ParseBuffer) (count : Nat) :
    (buffer.skip count).depth = buffer.depth := rfl

@[simp] theorem skip_hooks (buffer : ParseBuffer) (count : Nat) :
    (buffer.skip count).hooks = buffer.hooks := rfl

@[simp] theorem skip_zero (buffer : ParseBuffer) : buffer.skip 0 = buffer := rfl

/-- A cursor that is moved twice is moved once, by the sum. -/
@[simp] theorem skip_skip (buffer : ParseBuffer) (first second : Nat) :
    (buffer.skip first).skip second = buffer.skip (first + second) := by
  simp [skip, Nat.add_assoc]

@[simp] theorem remaining_skip (buffer : ParseBuffer) (count : Nat) :
    (buffer.skip count).remaining = buffer.remaining.drop count := by
  simp [remaining, List.drop_drop]

variable {buffer : ParseBuffer}

/-- How much is left behind the cursor, in terms of the two fields that the source
compares. -/
theorem Valid.remaining_length (valid : buffer.Valid) :
    buffer.offset + buffer.remaining.length = buffer.length := by
  have inside := valid.offset_le
  have total := valid.length_eq
  simp only [remaining, List.length_drop]
  omega

/-- The cursor may be moved as far as there are bytes, and right behind the last one. -/
theorem Valid.skip (valid : buffer.Valid) {count : Nat} (inside : count ≤ buffer.remaining.length) :
    (buffer.skip count).Valid := by
  have total := valid.remaining_length
  exact ⟨valid.length_eq, by simp only [skip_offset, skip_length]; omega⟩

/-- A read at the cursor, or behind it, finds the byte of what is left. -/
theorem read_eq {index : Nat} {byte : UInt8} (found : buffer.remaining[index]? = some byte) :
    buffer.read (buffer.offset + index) = .ok byte := by
  rw [remaining, List.getElem?_drop] at found
  rw [read, found]

/-- The byte at the cursor, where it is known. -/
theorem read_head {byte : UInt8} {rest : Bytes} (found : buffer.remaining = byte :: rest) :
    buffer.read buffer.offset = .ok byte :=
  @read_eq buffer 0 byte (by rw [found]; rfl)

/-- The guard `can_access_at_index` asks whether there is a byte of that index in what
is left.  The source makes this test in front of every read. -/
theorem Valid.canAccess_eq (valid : buffer.Valid) (index : Nat) :
    buffer.canAccessAtIndex index = decide (index < buffer.remaining.length) := by
  have total := valid.remaining_length
  simp only [canAccessAtIndex, decide_eq_decide]
  omega

/-- Behind its guard, moving on does not fail: it is a skip. -/
theorem Valid.advance_eq (valid : buffer.Valid) {count : Nat}
    (inside : count ≤ buffer.remaining.length) : buffer.advance count = .ok (buffer.skip count) := by
  have total := valid.remaining_length
  rw [advance, seek, if_pos (by omega)]
  rfl

/-- Going back one byte undoes a skip of one.  The source does this in front of the
first entry of a container, to begin the loop in the place where a comma would have
been. -/
theorem Valid.retreat_skip (valid : buffer.Valid) {count : Nat}
    (inside : count ≤ buffer.remaining.length) :
    (buffer.skip (count + 1)).retreat = .ok (buffer.skip count) := by
  have total := valid.remaining_length
  rw [retreat, if_neg (by simp only [skip_offset]; omega), seek,
    if_pos (by simp only [skip_offset, skip_length]; omega)]
  rfl

/-- The test for a byte behind its guard is one for the first byte of what is left. -/
theorem Valid.guardedByte_eq (valid : buffer.Valid) (byte : UInt8) :
    buffer.guardedByte byte = .ok (buffer.remaining.head? == some byte) := by
  rw [guardedByte, valid.canAccess_eq]
  cases bytes : buffer.remaining with
  | nil => rfl
  | cons found rest =>
      rw [if_pos (by simp), read_head bytes]
      rfl

/-- As many bytes as there are can be copied from the cursor on. -/
theorem Valid.readSlice_eq (valid : buffer.Valid) {size : Nat}
    (inside : size ≤ buffer.remaining.length) :
    readSlice buffer buffer.offset size = .ok (buffer.remaining.take size) := by
  have total := valid.remaining_length
  have whole := valid.length_eq
  rw [readSlice, if_pos (by omega)]
  rfl

/-- `strncmp` behind its guard tells whether what is left begins with a literal.  It
stops at a terminator, which none of the literals contains. -/
theorem Valid.canMatch_eq (valid : buffer.Valid) (literal : Bytes) :
    canMatch buffer literal.length literal =
      .ok (buffer.remaining.take literal.length == literal) := by
  have total := valid.remaining_length
  rw [canMatch, matchesAt, canRead]
  by_cases inside : literal.length ≤ buffer.remaining.length
  · rw [if_pos (by simp only [decide_eq_true_eq]; omega), if_neg (by omega),
      valid.readSlice_eq inside]
    rfl
  · rw [if_neg (by simp only [decide_eq_true_eq]; omega)]
    have short : (buffer.remaining.take literal.length == literal) = false := by
      rw [beq_eq_false_iff_ne]
      intro same
      have lengths := congrArg List.length same
      simp only [List.length_take] at lengths
      omega
    rw [short]

end ParseBuffer

/-! ## Whitespace -/

/-- The number of bytes up to 32 at the front.  The terminator is one of them, and so
whitespace may go on behind the end of a C string. -/
def whitespaceCount : Bytes -> Nat
  | [] => 0
  | byte :: rest => if byte ≤ 32 then whitespaceCount rest + 1 else 0

/-- What `buffer_skip_whitespace` skips.  It never skips the last byte of the
buffer: from the end it steps back. -/
def skippedWhitespace : Bytes -> Nat
  | [] => 0
  | [_] => 0
  | byte :: next :: rest => if byte ≤ 32 then skippedWhitespace (next :: rest) + 1 else 0

theorem whitespaceCount_le (bytes : Bytes) : whitespaceCount bytes ≤ bytes.length := by
  induction bytes with
  | nil => exact Nat.le_refl 0
  | cons byte rest hypothesis =>
      rw [whitespaceCount]
      split
      · exact Nat.succ_le_succ hypothesis
      · exact Nat.zero_le _

/-- All of the whitespace is skipped, unless there is nothing else: then one byte is
left. -/
theorem skippedWhitespace_eq (bytes : Bytes) :
    skippedWhitespace bytes =
      if whitespaceCount bytes = bytes.length then bytes.length - 1 else whitespaceCount bytes := by
  induction bytes using skippedWhitespace.induct with
  | case1 => rfl
  | case2 byte =>
      rw [skippedWhitespace, whitespaceCount, whitespaceCount]
      split <;> split <;> simp_all
  | case3 byte next rest small hypothesis =>
      have count : whitespaceCount (byte :: next :: rest) = whitespaceCount (next :: rest) + 1 :=
        if_pos small
      rw [skippedWhitespace, if_pos small, hypothesis, count]
      simp only [List.length_cons, Nat.add_right_cancel_iff]
      split <;> omega
  | case4 byte next rest large =>
      rw [skippedWhitespace, if_neg large, whitespaceCount, if_neg large, if_neg (by simp)]

theorem skippedWhitespace_le (bytes : Bytes) : skippedWhitespace bytes ≤ bytes.length := by
  have bound := whitespaceCount_le bytes
  rw [skippedWhitespace_eq]
  split <;> omega

/-- Something is left after a skip, if there was anything. -/
theorem skippedWhitespace_lt {bytes : Bytes} (some : bytes ≠ []) :
    skippedWhitespace bytes < bytes.length := by
  have bound := whitespaceCount_le bytes
  have positive := List.length_pos_of_ne_nil some
  rw [skippedWhitespace_eq]
  split <;> omega

/-- A second skip does nothing. -/
theorem skippedWhitespace_drop (bytes : Bytes) :
    skippedWhitespace (bytes.drop (skippedWhitespace bytes)) = 0 := by
  induction bytes using skippedWhitespace.induct with
  | case1 => rfl
  | case2 byte => rfl
  | case3 byte next rest small hypothesis =>
      rw [skippedWhitespace, if_pos small, List.drop_succ_cons]
      exact hypothesis
  | case4 byte next rest large =>
      rw [skippedWhitespace, if_neg large, List.drop_zero, skippedWhitespace, if_neg large]

namespace ParseBuffer

variable {buffer after : ParseBuffer}

/-- The loop of `buffer_skip_whitespace` moves over the whitespace in front, by
induction on the bytes that are left. -/
theorem Valid.skipWhitespaceLoop_eq {count : Nat} (valid : buffer.Valid)
    (enough : buffer.remaining.length ≤ count) :
    skipWhitespaceLoop count buffer = .ok (buffer.skip (whitespaceCount buffer.remaining)) := by
  induction count generalizing buffer with
  | zero =>
      have empty : buffer.remaining = [] := List.length_eq_zero_iff.mp (Nat.le_zero.mp enough)
      rw [skipWhitespaceLoop, empty]
      rfl
  | succ count hypothesis =>
      rw [skipWhitespaceLoop, valid.canAccess_eq]
      cases bytes : buffer.remaining with
      | nil => rfl
      | cons byte rest =>
          have inside : 1 ≤ buffer.remaining.length := by simp [bytes]
          rw [if_pos (by simp), read_head bytes, whitespaceCount]
          by_cases small : byte ≤ 32
          · have left : (buffer.skip 1).remaining = rest := by rw [remaining_skip, bytes]; rfl
            have next := hypothesis (valid.skip inside) (by
              rw [left]
              rw [bytes, List.length_cons] at enough
              omega)
            rw [left, skip_skip, Nat.add_comm] at next
            simp only [Except.ok_bind, if_pos small, valid.advance_eq inside]
            exact next
          · simp only [Except.ok_bind, if_neg small]
            rfl

/-- `buffer_skip_whitespace` moves the cursor by `skippedWhitespace`. -/
theorem Valid.bufferSkipWhitespace_eq (valid : buffer.Valid) :
    bufferSkipWhitespace buffer = .ok (buffer.skip (skippedWhitespace buffer.remaining)) := by
  have total := valid.remaining_length
  rw [bufferSkipWhitespace, valid.canAccess_eq]
  cases bytes : buffer.remaining with
  | nil => rfl
  | cons byte rest =>
      have length : buffer.remaining.length = rest.length + 1 := by rw [bytes]; rfl
      have bound := whitespaceCount_le buffer.remaining
      rw [if_neg (by simp), valid.skipWhitespaceLoop_eq (by omega), Except.ok_bind, ← bytes,
        skippedWhitespace_eq]
      by_cases all : whitespaceCount buffer.remaining = buffer.remaining.length
      · rw [if_pos (by rw [skip_offset, skip_length]; omega), if_pos all, all, length]
        exact valid.retreat_skip (by omega)
      · rw [if_neg (by rw [skip_offset, skip_length]; omega), if_neg all]

/-- After skipping whitespace the buffer is still one that can be read. -/
theorem Valid.skipWhitespace (valid : buffer.Valid) :
    (buffer.skip (skippedWhitespace buffer.remaining)).Valid :=
  valid.skip (skippedWhitespace_le _)

/-! ## Allocation -/

/-- Hooks that always succeed grant the request at hand, and are of this kind
afterwards.  So memory does not show in what the parser does with them. -/
theorem granted_eq (succeeds : buffer.hooks.AlwaysSucceed) (size : Nat) :
    buffer.granted size = true := succeeds 0 size

theorem requested_eq (succeeds : buffer.hooks.AlwaysSucceed) (size : Nat) :
    buffer.requested size = buffer := by
  rw [requested, Hooks.request_of_alwaysSucceed succeeds]

/-- The buffer after a call that has used `count` bytes, whatever it has asked of the
hooks.  The memory, its length and the nesting depth are what they were; that the
depth comes back is what the nesting limit rests on. -/
structure Moved (buffer : ParseBuffer) (count : Nat) (after : ParseBuffer) : Prop where
  content_eq : after.content = buffer.content
  length_eq : after.length = buffer.length
  depth_eq : after.depth = buffer.depth
  offset_eq : after.offset = buffer.offset + count

/-- A skip is a move, a request is one by nothing, and two moves one after the other
are a move by the sum. -/
theorem moved_skip (buffer : ParseBuffer) (count : Nat) : buffer.Moved count (buffer.skip count) :=
  ⟨rfl, rfl, rfl, rfl⟩

theorem moved_requested (buffer : ParseBuffer) (size : Nat) :
    buffer.Moved 0 (buffer.requested size) := ⟨rfl, rfl, rfl, rfl⟩

theorem Moved.trans {middle : ParseBuffer} {first second : Nat} (moved : buffer.Moved first middle)
    (again : middle.Moved second after) : buffer.Moved (first + second) after :=
  ⟨again.content_eq.trans moved.content_eq, again.length_eq.trans moved.length_eq,
    again.depth_eq.trans moved.depth_eq, by rw [again.offset_eq, moved.offset_eq, Nat.add_assoc]⟩

theorem Moved.of_eq {first second : Nat} (moved : buffer.Moved first after)
    (same : first = second) : buffer.Moved second after := same ▸ moved

/-- What is left after a move is what was left before without its front. -/
theorem Moved.remaining {count : Nat} (moved : buffer.Moved count after) :
    after.remaining = buffer.remaining.drop count := by
  simp only [ParseBuffer.remaining, moved.content_eq, moved.offset_eq, List.drop_drop]

/-- A buffer that has been moved no further than its end is valid again. -/
theorem Moved.valid {count : Nat} (moved : buffer.Moved count after) (valid : buffer.Valid)
    (inside : count ≤ buffer.remaining.length) : after.Valid := by
  have total := valid.remaining_length
  refine ⟨by rw [moved.length_eq, moved.content_eq, valid.length_eq], ?_⟩
  rw [moved.offset_eq, moved.length_eq]
  omega

end ParseBuffer

end CJson
