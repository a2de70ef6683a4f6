import CJson.Print
import CJson.Library.Returns

/-!
# What the printer prints

`rendering` is the text of a tree, put together without a buffer.  The printer
refines it: whatever the hooks answer, it never stores or scans outside its
block, and if it succeeds its buffer holds the rendering behind what was there
before; and it does succeed when memory is granted and the rendering fits.
-/

namespace CJson

open CString PrintBuffer

/-- A string between quotes, escaped; `""` for NULL. -/
def stringText : Option Bytes -> Bytes
  | none => [0x22, 0x22]
  | some block => 0x22 :: ((text block).flatMap escapeByte ++ [0x22])

/-- What stands between two elements. -/
def arraySeparator (format : Bool) : Bytes := if format then [0x2C, 0x20] else [0x2C]

/-- The start of an object. -/
def objectOpening (format : Bool) : Bytes := if format then [0x7B, 0x0A] else [0x7B]

/-- The end of an object whose members are `depth` containers deep. -/
def objectClosing (format : Bool) (depth : Nat) : Bytes :=
  (if format then List.replicate (depth - 1) 0x09 else []) ++ [0x7D]

/-- What stands in front of a member name. -/
def indentation (format : Bool) (depth : Nat) : Bytes :=
  if format then List.replicate depth 0x09 else []

/-- What stands between a member's name and its value. -/
def colon (format : Bool) : Bytes := if format then [0x3A, 0x09] else [0x3A]

/-- What stands behind a member. -/
def objectSeparator (format isLast : Bool) : Bytes :=
  (if isLast then [] else [0x2C]) ++ (if format then [0x0A] else [])

mutual

/-- The text of a node below `depth` containers, `none` if it has none: a node without
a type, a number that `snprintf` does not fit into its buffer, raw text that is NULL,
and a container below the limit. -/
def rendering (library : CLibrary) (format : Bool) : Nat -> Item -> Option Bytes
  | depth, .mk fields child _ =>
      match fields.type_.base with
      | .null => some [0x6E, 0x75, 0x6C, 0x6C]
      | .false => some [0x66, 0x61, 0x6C, 0x73, 0x65]
      | .true => some [0x74, 0x72, 0x75, 0x65]
      | .number =>
          match numberBuffer library fields with
          | none => none
          | some printed => if 25 < printed.length then none else some (numberText library printed)
      | .raw => fields.valuestring.map text
      | .string => some (stringText fields.valuestring)
      | .array =>
          if nestingLimit ≤ depth then none
          else (renderElements library format (depth + 1) child).map
            (fun inner => 0x5B :: (inner ++ [0x5D]))
      | .object =>
          if nestingLimit ≤ depth then none
          else (renderMembers library format (depth + 1) child).map
            (fun inner => objectOpening format ++ (inner ++ objectClosing format (depth + 1)))
      | .invalid => none

def renderElements (library : CLibrary) (format : Bool) : Nat -> List Item -> Option Bytes
  | _, [] => some []
  | depth, item :: rest => do
      let value ← rendering library format depth item
      let others ← renderElements library format depth rest
      some (value ++ ((if rest.isEmpty then [] else arraySeparator format) ++ others))

def renderMembers (library : CLibrary) (format : Bool) : Nat -> List Item -> Option Bytes
  | _, [] => some []
  | depth, item :: rest => do
      let value ← rendering library format depth item
      let others ← renderMembers library format depth rest
      some (indentation format depth ++ (stringText item.string ++ (colon format ++
        (value ++ (objectSeparator format rest.isEmpty ++ others)))))

end

theorem not_mem_append {first second : Bytes} (left : (0 : UInt8) ∉ first)
    (right : (0 : UInt8) ∉ second) : (0 : UInt8) ∉ first ++ second := by
  intro inside
  rcases List.mem_append.mp inside with inside | inside
  · exact left inside
  · exact right inside

/-! ## States of the buffer -/

/-- The buffer's memory begins with these bytes.  What is behind them is whatever the
memory held before. -/
def PrintBuffer.Holds (p : PrintBuffer) (bytes : Bytes) : Prop :=
  ∃ block, p.buffer = some block ∧ block.bytes.length = p.length ∧
    ∃ rest, block.bytes = bytes ++ rest

/-- Everything up to `offset` is written.  Only a buffer without any memory has
no byte to spare, and then nothing has to be copied out of it. -/
structure PrintBuffer.Written (p : PrintBuffer) (depth : Nat) (bytes : Bytes) : Prop where
  holds : p.Holds bytes
  depth_eq : p.depth = depth
  offset : p.offset = bytes.length
  nulFree : (0 : UInt8) ∉ bytes
  room : p.offset < p.length ∨ (p.length = 0 ∧ (p.noalloc = true ∨ p.allocator.hooks.hasReallocate = true))

/-- A value is written up to its terminator, and `offset` is somewhere in it.  It is
what `print_value` leaves, and `update_offset` makes `Written` of it. -/
structure PrintBuffer.Terminated (p : PrintBuffer) (depth : Nat) (bytes : Bytes) : Prop where
  holds : p.Holds (bytes ++ [0])
  depth_eq : p.depth = depth
  offset : p.offset ≤ bytes.length
  nulFree : (0 : UInt8) ∉ bytes
  room : bytes.length + 2 ≤ p.length

/-- What no step of the printer changes: the format, whose buffer it is, and what the
hooks are able to do. -/
structure PrintBuffer.SameRun (p after : PrintBuffer) : Prop where
  format : after.format = p.format
  noalloc : after.noalloc = p.noalloc
  hasReallocate : after.allocator.hooks.hasReallocate = p.allocator.hooks.hasReallocate
  succeeds : p.allocator.hooks.AlwaysSucceed -> after.allocator.hooks.AlwaysSucceed
  length : p.noalloc = true -> after.length = p.length

/-- There is room for a text of `total` bytes, its terminator and the byte that
`ensure` keeps in reserve.  A buffer that must not grow has it from the start; one
that may grow gets it if the hooks never refuse. -/
structure PrintBuffer.Enough (p : PrintBuffer) (total : Nat) : Prop where
  size : total + 2 ≤ intMax
  fixed : p.noalloc = true -> total + 2 ≤ p.length
  grows : p.noalloc = false -> p.allocator.hooks.AlwaysSucceed

namespace PrintBuffer.SameRun

variable {p second third : PrintBuffer}

theorem refl (p : PrintBuffer) : p.SameRun p :=
  ⟨rfl, rfl, rfl, id, fun _ => rfl⟩

theorem trans (first : p.SameRun second) (next : second.SameRun third) : p.SameRun third where
  format := next.format.trans first.format
  noalloc := next.noalloc.trans first.noalloc
  hasReallocate := next.hasReallocate.trans first.hasReallocate
  succeeds := next.succeeds ∘ first.succeeds
  length fixed := (next.length (first.noalloc.trans fixed)).trans (first.length fixed)

theorem stored (p : PrintBuffer) {buffer : Option Block} {count : Nat} :
    p.SameRun (PrintBuffer.advance { p with buffer := buffer } count) :=
  ⟨rfl, rfl, rfl, id, fun _ => rfl⟩

theorem enough (same : p.SameRun second) {total : Nat} (enough : p.Enough total) :
    second.Enough total where
  size := enough.size
  fixed fixed := by
    rw [same.noalloc] at fixed
    rw [same.length fixed]
    exact enough.fixed fixed
  grows owned := same.succeeds (enough.grows (same.noalloc.symm.trans owned))

end PrintBuffer.SameRun

theorem PrintBuffer.Enough.le {p : PrintBuffer} {total smaller : Nat} (enough : p.Enough total)
    (le : smaller ≤ total) : p.Enough smaller where
  size := (Nat.add_le_add_right le 2).trans enough.size
  fixed fixed := (Nat.add_le_add_right le 2).trans (enough.fixed fixed)
  grows := enough.grows

/-- A step that starts behind `written` and prints `rendered`: if it succeeds
there is a text, and the buffer meets `post` for everything written so far; and
it succeeds if there is enough room for that text. -/
def Prints (p : PrintBuffer) (written : Bytes) (rendered : Option Bytes)
    (post : PrintBuffer -> Bytes -> Prop) (run : Printing) : Prop :=
  Returns run fun result =>
    (result.1 = true -> p.SameRun result.2 ∧
      ∃ text, rendered = some text ∧ post result.2 (written ++ text)) ∧
    (∀ text, rendered = some text -> p.Enough (written ++ text).length -> result.1 = true)

namespace Prints

variable {p : PrintBuffer} {written : Bytes} {rendered : Option Bytes}
  {post : PrintBuffer -> Bytes -> Prop} {run : Printing}

/-- A step that fails has to print something that has no text. -/
theorem fails : Prints p written none post (.ok (false, p)) :=
  Returns.ok ⟨fun impossible => (nomatch impossible), fun _ impossible => (nomatch impossible)⟩

theorem done {after : PrintBuffer} {text : Bytes} (same : p.SameRun after)
    (holds : post after (written ++ text)) :
    Prints p written (some text) post (.ok (true, after)) :=
  Returns.ok ⟨fun _ => ⟨same, text, rfl, holds⟩, fun _ _ _ => rfl⟩

/-- A change of the buffer's state that counts for nothing. -/
theorem since {earlier : PrintBuffer} (prints : Prints p written rendered post run)
    (same : earlier.SameRun p) : Prints earlier written rendered post run := by
  apply Returns.mono prints
  rintro result ⟨succeeded, enough⟩
  constructor
  · intro printed
    exact ⟨same.trans (succeeded printed).1, (succeeded printed).2⟩
  · intro text found room
    exact enough text found (same.enough room)

/-- Sequencing: the second step prints behind the first.  If the first one has no
text, neither has the whole, and the second step is not run. -/
theorem andThen {second : Option Bytes} {last : PrintBuffer -> Bytes -> Prop}
    {next : PrintBuffer -> Printing} (first : Prints p written rendered post run)
    (follows : ∀ after text, p.SameRun after -> rendered = some text -> post after (written ++ text) ->
      Prints after (written ++ text) second last (next after)) :
    Prints p written (do let front ← rendered; let back ← second; some (front ++ back)) last
      (orFail run next) := by
  rcases first with ⟨⟨printed, after⟩, ends, succeeded, enough⟩
  unfold orFail
  rw [ends, Except.ok_bind]
  cases printed with
  | false =>
      refine Returns.ok ⟨fun impossible => (nomatch impossible), ?_⟩
      intro text found room
      rcases Option.bind_eq_some_iff.mp found with ⟨front, frontFound, found⟩
      rcases Option.bind_eq_some_iff.mp found with ⟨back, _, same⟩
      cases same
      apply enough front frontFound
      apply room.le
      simp only [List.length_append]
      omega
  | true =>
      rcases succeeded rfl with ⟨same, front, frontFound, holds⟩
      apply Returns.mono (follows after front same frontFound holds)
      rintro result ⟨secondSucceeded, secondEnough⟩
      constructor
      · intro finished
        rcases secondSucceeded finished with ⟨sameAfter, back, backFound, final⟩
        refine ⟨same.trans sameAfter, front ++ back, ?_, ?_⟩
        · rw [frontFound, backFound]
          rfl
        · rw [← List.append_assoc]
          exact final
      · intro text found room
        rcases Option.bind_eq_some_iff.mp found with ⟨other, otherFound, found⟩
        rcases Option.bind_eq_some_iff.mp found with ⟨back, backFound, whole⟩
        cases frontFound.symm.trans otherFound
        cases whole
        apply secondEnough back backFound
        apply same.enough
        rw [List.append_assoc]
        exact room

end Prints

/-! ## The operations of the buffer -/

theorem Block.write_eq {block : Block} {held bytes rest : Bytes} (split : block.bytes = held ++ rest)
    (fits : held.length + bytes.length ≤ block.bytes.length) :
    ∃ after, block.write held.length bytes = some after ∧
      after.bytes.length = block.bytes.length ∧ ∃ behind, after.bytes = (held ++ bytes) ++ behind := by
  refine ⟨_, if_pos fits, ?_, rest.drop bytes.length, ?_⟩
  · simp only [List.length_append, List.length_take, List.length_drop]
    omega
  · rw [split, List.take_left, List.drop_append, List.append_assoc]
    simp

/-- Bytes that are stored behind what the buffer holds. -/
theorem PrintBuffer.Holds.write {p : PrintBuffer} {held bytes : Bytes} {index : Nat}
    (holds : p.Holds held) (position : p.offset + index = held.length)
    (fits : held.length + bytes.length ≤ p.length) :
    ∃ block, p.write index bytes = .ok { p with buffer := some block } ∧
      PrintBuffer.Holds { p with buffer := some block } (held ++ bytes) := by
  rcases holds with ⟨block, found, length, rest, split⟩
  rcases @Block.write_eq block held bytes rest split (by rw [length]; exact fits) with
    ⟨after, stored, sameLength, behind⟩
  refine ⟨after, ?_, after, rfl, sameLength.trans length, behind⟩
  rw [PrintBuffer.write, found]
  dsimp only
  rw [position, stored]

theorem Hooks.request_hasReallocate (hooks : Hooks) (size : Nat) :
    (hooks.request size).2.hasReallocate = hooks.hasReallocate := rfl

theorem Hooks.request_succeeds {hooks : Hooks} (succeeds : hooks.AlwaysSucceed) (size : Nat) :
    (hooks.request size).2.AlwaysSucceed :=
  fun call asked => succeeds (call + 1) asked

/-- A block that grows keeps its bytes, whether the hooks can reallocate or the bytes
are copied. -/
theorem Allocator.reallocate_eq_some {allocator after : Allocator} {block newbuffer : Block}
    {size : Nat} (grown : allocator.reallocate block size = (some newbuffer, after))
    (larger : block.bytes.length ≤ size) :
    newbuffer.bytes.length = size ∧ ∃ rest, newbuffer.bytes = block.bytes ++ rest := by
  unfold Allocator.reallocate at grown
  injection grown with found _
  by_cases granted : (allocator.hooks.request size).1 = true
  · rw [if_pos granted] at found
    injection found with same
    rw [← same, List.take_of_length_le larger]
    refine ⟨?_, _, rfl⟩
    simp only [List.length_append, List.length_drop, List.length_map, List.length_range]
    omega
  · rw [if_neg granted] at found
    cases found

theorem Allocator.allocate_eq_some {allocator after : Allocator} {fresh : Block} {size : Nat}
    (obtained : allocator.allocate size = (some fresh, after)) : fresh.bytes.length = size := by
  unfold Allocator.allocate at obtained
  injection obtained with found _
  by_cases granted : (allocator.hooks.request size).1 = true
  · rw [if_pos granted] at found
    injection found with same
    rw [← same, List.length_map, List.length_range]
  · rw [if_neg granted] at found
    cases found

/-- Only a request that fails returns NULL. -/
theorem Allocator.not_succeeds {allocator after : Allocator} {block : Block} {size : Nat}
    (refused : allocator.reallocate block size = (none, after) ∨
      allocator.allocate size = (none, after)) : ¬ allocator.hooks.AlwaysSucceed := by
  intro succeeds
  have granted : (allocator.hooks.request size).1 = true := succeeds 0 size
  rcases refused with refused | refused
  · simp only [Allocator.reallocate, granted, if_pos] at refused
    cases refused
  · simp only [Allocator.allocate, granted, if_pos] at refused
    cases refused

/-- A buffer in its new block: what has been written is there, and the offset and the
depth are what they were. -/
theorem PrintBuffer.Written.move {p : PrintBuffer} {depth newsize : Nat} {written rest : Bytes}
    {newbuffer : Block} {allocator : Allocator} (start : p.Written depth written)
    (owned : p.noalloc = false) (room : p.offset < newsize)
    (hooksEq : allocator.hooks = (p.allocator.hooks.request newsize).2)
    (length : newbuffer.bytes.length = newsize) (kept : newbuffer.bytes = written ++ rest) :
    p.SameRun { p with allocator := allocator, length := newsize, buffer := some newbuffer } ∧
    PrintBuffer.Written { p with
      allocator := allocator, length := newsize, buffer := some newbuffer } depth written := by
  constructor
  · constructor
    · rfl
    · rfl
    · show allocator.hooks.hasReallocate = _
      rw [hooksEq, Hooks.request_hasReallocate]
    · intro succeeds
      show allocator.hooks.AlwaysSucceed
      rw [hooksEq]
      exact Hooks.request_succeeds succeeds newsize
    · intro fixed
      rw [owned] at fixed
      cases fixed
  · exact ⟨⟨newbuffer, rfl, length, rest, kept⟩, start.depth_eq, start.offset, start.nulFree,
      Or.inl room⟩

/-- What `grow` does: it keeps the bytes up to `offset`.  Only the copy into a block
of its own needs a byte to spare. -/
theorem PrintBuffer.grow_spec {p : PrintBuffer} {newsize : Nat} {block : Block}
    (length : block.bytes.length = p.length) (larger : p.length ≤ newsize)
    (room : p.offset < p.length ∨ (p.offset ≤ p.length ∧ p.allocator.hooks.hasReallocate = true)) :
    Returns (p.grow block newsize) fun result =>
      (result.1 = true -> ∃ newbuffer,
        result.2 = { p with allocator := result.2.allocator, length := newsize, buffer := some newbuffer } ∧
        newbuffer.bytes.length = newsize ∧ newbuffer.bytes.take p.offset = block.bytes.take p.offset ∧
        result.2.allocator.hooks = (p.allocator.hooks.request newsize).2) ∧
      (p.allocator.hooks.AlwaysSucceed -> result.1 = true) := by
  unfold PrintBuffer.grow
  by_cases hasReallocate : p.allocator.hooks.hasReallocate = true
  · have inside : p.offset ≤ p.length := by
      rcases room with inside | ⟨inside, _⟩
      · exact inside.le
      · exact inside
    rw [if_pos hasReallocate]
    cases grown : p.allocator.reallocate block newsize with
    | mk newbuffer allocator =>
        cases newbuffer with
        | none =>
            exact Returns.ok ⟨fun impossible => (nomatch impossible), fun succeeds =>
              absurd succeeds (Allocator.not_succeeds (Or.inl grown))⟩
        | some newbuffer =>
            rcases Allocator.reallocate_eq_some grown (by rw [length]; exact larger) with
              ⟨newLength, behind, kept⟩
            refine Returns.ok ⟨fun _ => ⟨newbuffer, rfl, newLength, ?_, ?_⟩, fun _ => rfl⟩
            · rw [kept, List.take_append_of_le_length (by omega)]
            · exact (congrArg (Allocator.hooks ∘ Prod.snd) grown).symm
  · rw [if_neg hasReallocate]
    -- without `reallocate` the buffer has a byte to spare, so the copy stays inside
    have inside : p.offset < p.length := by
      rcases room with inside | ⟨_, impossible⟩
      · exact inside
      · exact absurd impossible hasReallocate
    cases obtained : p.allocator.allocate newsize with
    | mk newbuffer allocator =>
        cases newbuffer with
        | none =>
            exact Returns.ok ⟨fun impossible => (nomatch impossible), fun succeeds =>
              absurd succeeds (@Allocator.not_succeeds _ _ block _ (Or.inr obtained))⟩
        | some newbuffer =>
            have newLength := Allocator.allocate_eq_some obtained
            have copied : (block.bytes.take (p.offset + 1)).length = p.offset + 1 := by
              rw [List.length_take]
              omega
            rcases @Block.write_eq newbuffer [] (block.bytes.take (p.offset + 1)) newbuffer.bytes rfl
              (by rw [copied, newLength]; simp only [List.length_nil]; omega) with
              ⟨after, stored, afterLength, tail, afterSplit⟩
            dsimp only
            rw [if_neg (by omega)]
            rw [List.length_nil] at stored
            rw [stored]
            refine Returns.ok ⟨fun _ => ⟨after, rfl, afterLength.trans newLength, ?_, ?_⟩, fun _ => rfl⟩
            · rw [afterSplit, List.nil_append, List.take_append_of_le_length (by omega), List.take_take,
                Nat.min_eq_left (Nat.le_succ _)]
            · exact (congrArg (Allocator.hooks ∘ Prod.snd) obtained).symm

/-- A buffer that grows keeps what is written.  A refusal reports failure; without one
the new block has the size that was asked for. -/
theorem PrintBuffer.Written.grow {p : PrintBuffer} {depth newsize : Nat} {written : Bytes}
    {block : Block} (start : p.Written depth written) (found : p.buffer = some block)
    (owned : p.noalloc = false) (larger : p.length ≤ newsize) (room : p.offset < newsize) :
    Returns (p.grow block newsize) fun result =>
      (result.1 = true -> p.SameRun result.2 ∧ result.2.Written depth written ∧
        result.2.length = newsize) ∧
      (p.allocator.hooks.AlwaysSucceed -> result.1 = true) := by
  rcases start.holds with ⟨same, found', length, rest, split⟩
  cases found.symm.trans found'
  have offset := start.offset
  have size := congrArg List.length split
  rw [List.length_append] at size
  have spare : p.offset < p.length ∨ (p.offset ≤ p.length ∧ p.allocator.hooks.hasReallocate = true) := by
    rcases start.room with inside | ⟨_, noalloc | reallocates⟩
    · exact Or.inl inside
    · rw [owned] at noalloc
      cases noalloc
    · exact Or.inr ⟨by omega, reallocates⟩
  apply (grow_spec length larger spare).mono
  rintro ⟨granted, after⟩ ⟨succeeded, enough⟩
  refine ⟨fun grown => ?_, enough⟩
  rcases succeeded grown with ⟨newbuffer, same, newLength, front, hooksEq⟩
  have kept : newbuffer.bytes = written ++ newbuffer.bytes.drop p.offset := by
    have whole := List.take_append_drop p.offset newbuffer.bytes
    rw [front, split, offset, List.take_left, ← offset] at whole
    exact whole.symm
  have moved := start.move owned room hooksEq newLength kept
  rw [← same] at moved
  refine ⟨moved.1, moved.2, ?_⟩
  have lengths := congrArg PrintBuffer.length same
  exact lengths

theorem PrintBuffer.newSize_eq_some {needed newsize : Nat} (found : newSize needed = some newsize) :
    needed ≤ newsize := by
  unfold newSize at found
  by_cases large : intMax / 2 < needed
  · rw [if_pos large] at found
    by_cases fits : needed ≤ intMax
    · rw [if_pos fits] at found
      cases found
      exact fits
    · rw [if_neg fits] at found
      cases found
  · rw [if_neg large] at found
    cases found
    omega

/-- `ensure` keeps what is written and makes room for `needed` bytes and one
more. -/
theorem PrintBuffer.Written.ensure {p : PrintBuffer} {depth : Nat} {written : Bytes}
    (start : p.Written depth written) {needed total : Nat}
    (small : needed + written.length ≤ total + 1) :
    Returns (p.ensure needed) fun result =>
      (result.1 = true -> p.SameRun result.2 ∧ result.2.Written depth written ∧
        needed + written.length + 1 ≤ result.2.length) ∧
      (p.Enough total -> result.1 = true) := by
  rcases start.holds with ⟨block, found, length, rest, split⟩
  have offset := start.offset
  have valid : ¬ (0 < p.length ∧ p.length ≤ p.offset) := by
    rintro ⟨positive, beyond⟩
    rcases start.room with inside | ⟨empty, _⟩ <;> omega
  unfold PrintBuffer.ensure
  rw [found]
  dsimp only
  rw [if_neg valid]
  by_cases huge : intMax < needed
  · rw [if_pos huge]
    refine Returns.ok ⟨fun impossible => (nomatch impossible), ?_⟩
    intro enough
    have size := enough.size
    omega
  · rw [if_neg huge]
    by_cases fits : needed + p.offset + 1 ≤ p.length
    · rw [if_pos fits]
      refine Returns.ok ⟨fun _ => ⟨.refl p, start, ?_⟩, fun _ => rfl⟩
      show needed + written.length + 1 ≤ p.length
      omega
    · rw [if_neg fits]
      by_cases fixed : p.noalloc = true
      · rw [if_pos fixed]
        refine Returns.ok ⟨fun impossible => (nomatch impossible), ?_⟩
        intro enough
        have size := enough.fixed fixed
        omega
      · rw [if_neg fixed]
        cases sized : newSize (needed + p.offset + 1) with
        | none =>
            refine Returns.ok ⟨fun impossible => (nomatch impossible), ?_⟩
            intro enough
            have size := enough.size
            unfold newSize at sized
            split at sized
            · rw [if_pos (by omega)] at sized
              cases sized
            · cases sized
        | some newsize =>
            have larger := newSize_eq_some sized
            apply Returns.mono (start.grow found (by simpa using fixed) (by omega) (by omega))
            rintro result ⟨succeeded, granted⟩
            constructor
            · intro grown
              rcases succeeded grown with ⟨same, after, size⟩
              exact ⟨same, after, by omega⟩
            · intro enough
              exact granted (enough.grows (by simpa using fixed))

namespace Prints

variable {p : PrintBuffer} {written : Bytes} {rendered : Option Bytes} {depth : Nat}
  {post : PrintBuffer -> Bytes -> Prop}

/-- Room is reserved for a text that comes next.  If it is refused, the run ends
there; if not, what follows may write that much. -/
theorem reserve {needed : Nat} {next : PrintBuffer -> Printing} (start : p.Written depth written)
    (small : ∀ text, rendered = some text -> needed ≤ text.length + 1)
    (follows : ∀ after, p.SameRun after -> after.Written depth written ->
      needed + written.length + 1 ≤ after.length -> Prints after written rendered post (next after)) :
    Prints p written rendered post (orFail (p.ensure needed) next) := by
  have ensured := fun total => @PrintBuffer.Written.ensure p depth written start needed total
  rcases ensured (needed + written.length) (by omega) with ⟨⟨granted, after⟩, ends, succeeded, _⟩
  have enough : ∀ text, rendered = some text -> p.Enough (written ++ text).length ->
      granted = true := by
    intro text found room
    have bound := small text found
    rw [List.length_append] at room
    exact ((ensured (written.length + text.length) (by omega)).elim ends).2 room
  unfold orFail
  rw [ends, Except.ok_bind]
  cases granted with
  | false =>
      exact Returns.ok ⟨fun impossible => (nomatch impossible), fun text found room =>
        enough text found room⟩
  | true =>
      rcases succeeded rfl with ⟨same, written, length⟩
      exact (follows after same written length).since same

/-- A text that `offset` moves over at once. -/
theorem store_written {needed : Nat} {text behind : Bytes} (start : p.Written depth written)
    (fits : (text ++ behind).length ≤ needed) (small : needed ≤ text.length + 1)
    (nulFree : (0 : UInt8) ∉ text) :
    Prints p written (some text) (fun after bytes => after.Written depth bytes)
      (store p needed (text ++ behind) text.length) := by
  apply reserve start
  · intro other same
    cases same
    exact small
  intro after same ready length
  rcases @PrintBuffer.Holds.write after written (text ++ behind) 0 ready.holds ready.offset
    (by omega) with ⟨block, stored, kept, found, blockLength, rest, split⟩
  rw [stored, Except.ok_bind]
  rw [List.length_append] at fits
  have offset : after.offset + text.length = (written ++ text).length := by
    rw [ready.offset, List.length_append]
  apply done (.stored after)
  refine ⟨⟨kept, found, blockLength, behind ++ rest, ?_⟩, ready.depth_eq, offset,
    not_mem_append ready.nulFree nulFree, Or.inl ?_⟩
  · rw [split]
    simp only [List.append_assoc]
  · show after.offset + text.length < after.length
    rw [ready.offset]
    omega

/-- A text with its terminator, of which `offset` skips the first `count`
bytes. -/
theorem store_terminated {needed count : Nat} {text : Bytes} (start : p.Written depth written)
    (exact : needed = text.length + 1) (skips : count ≤ text.length)
    (nulFree : (0 : UInt8) ∉ text) :
    Prints p written (some text) (fun after bytes => after.Terminated depth bytes)
      (store p needed (text ++ [0]) count) := by
  apply reserve start
  · intro other same
    cases same
    omega
  intro after same ready length
  have size : (text ++ [0]).length = needed := by
    rw [List.length_append, exact]
    rfl
  rcases @PrintBuffer.Holds.write after written (text ++ [0]) 0 ready.holds ready.offset
    (by omega) with ⟨block, stored, holds⟩
  rw [stored, Except.ok_bind]
  have offset : after.offset + count = written.length + count := by
    rw [ready.offset]
  apply done (.stored after)
  refine ⟨?_, ready.depth_eq, ?_, ?_, ?_⟩
  · rw [List.append_assoc]
    exact holds
  · show after.offset + count ≤ _
    rw [offset, List.length_append]
    omega
  · exact not_mem_append ready.nulFree nulFree
  · show (written ++ text).length + 2 ≤ after.length
    rw [List.length_append]
    omega

end Prints

/-- `update_offset` moves behind a value: to the terminator that the value has left. -/
theorem PrintBuffer.Terminated.updateOffset {p : PrintBuffer} {depth : Nat} {bytes : Bytes}
    (ended : p.Terminated depth bytes) :
    ∃ after, p.updateOffset = .ok after ∧ p.SameRun after ∧ after.Written depth bytes ∧
      after.Terminated depth bytes := by
  rcases ended.holds with ⟨block, found, length, rest, split⟩
  have behind : block.bytes.drop p.offset = bytes.drop p.offset ++ 0 :: rest := by
    rw [split, List.append_assoc, List.drop_append_of_le_length ended.offset]
    rfl
  have offset : p.offset + (text (block.bytes.drop p.offset)).length = bytes.length := by
    rw [behind, text_append_zero (fun inside => ended.nulFree (List.mem_of_mem_drop inside)),
      List.length_drop]
    have le := ended.offset
    omega
  refine ⟨p.advance (text (block.bytes.drop p.offset)).length, ?_, ⟨rfl, rfl, rfl, id, fun _ => rfl⟩, ?_⟩
  · unfold PrintBuffer.updateOffset
    rw [found]
    dsimp only
    rw [if_pos (by rw [behind]; simp)]
  · constructor
    · refine ⟨⟨block, found, length, 0 :: rest, ?_⟩, ended.depth_eq, offset, ended.nulFree, Or.inl ?_⟩
      · rw [split, List.append_assoc]
        rfl
      · show p.offset + (text (block.bytes.drop p.offset)).length < p.length
        rw [offset]
        have room := ended.room
        omega
    · exact ⟨ended.holds, ended.depth_eq, Nat.le_of_eq offset, ended.nulFree, ended.room⟩

/-! ## Strings -/

/-- A fact about bytes that holds for each of the 256. -/
theorem byte_induction {motive : UInt8 -> Prop} (all : ∀ value : Fin 256, motive (UInt8.ofNat value))
    (byte : UInt8) : motive byte := by
  have same : UInt8.ofNat byte.toNat = byte := UInt8.ofNat_toNat
  rw [← same]
  exact all ⟨byte.toNat, byte.toNat_lt⟩

/-- The first pass over a string counts what the second one writes. -/
theorem escapeByte_length (byte : UInt8) :
    (escapeByte byte).length = 1 + escapeCharacters byte := by
  induction byte using byte_induction with
  | all value =>
      revert value
      decide +kernel

/-- A byte without an escape is copied. -/
theorem escapeByte_plain (byte : UInt8) :
    escapeCharacters byte = 0 -> escapeByte byte = [byte] := by
  induction byte using byte_induction with
  | all value =>
      revert value
      decide +kernel

theorem zero_not_mem_escapeByte (byte : UInt8) : byte ≠ 0 -> (0 : UInt8) ∉ escapeByte byte := by
  induction byte using byte_induction with
  | all value =>
      revert value
      decide +kernel

theorem flatMap_escapeByte_length (input : Bytes) :
    (input.flatMap escapeByte).length = input.length + (input.map escapeCharacters).sum := by
  induction input with
  | nil => rfl
  | cons byte input hypothesis =>
      rw [List.flatMap_cons, List.length_append, hypothesis, escapeByte_length, List.map_cons,
        List.sum_cons, List.length_cons]
      omega

theorem flatMap_escapeByte_plain {input : Bytes} (plain : (input.map escapeCharacters).sum = 0) :
    input.flatMap escapeByte = input := by
  induction input with
  | nil => rfl
  | cons byte input hypothesis =>
      rw [List.map_cons, List.sum_cons] at plain
      rw [List.flatMap_cons, escapeByte_plain byte (by omega), hypothesis (by omega)]
      rfl

theorem zero_not_mem_stringText (input : Option Bytes) : (0 : UInt8) ∉ stringText input := by
  cases input with
  | none => decide
  | some block =>
      intro inside
      rcases List.mem_cons.mp inside with same | inside
      · exact absurd same (by decide)
      rcases List.mem_append.mp inside with inside | inside
      · rcases List.mem_flatMap.mp inside with ⟨byte, found, inside⟩
        apply zero_not_mem_escapeByte byte _ inside
        rintro rfl
        exact zero_not_mem_text block found
      · exact absurd (List.mem_singleton.mp inside) (by decide)

section Values

variable {p : PrintBuffer} {written : Bytes} {depth : Nat}

/-- `print_string_ptr` prints the escaped string. -/
theorem printStringPtr_prints (input : Option Bytes) (start : p.Written depth written) :
    Prints p written (some (stringText input)) (fun after bytes => after.Terminated depth bytes)
      ((printStringPtr input).run p) := by
  cases input with
  | none => exact @Prints.store_terminated _ _ _ _ 0 [0x22, 0x22] start rfl (by decide) (by decide)
  | some block =>
      have bodyLength := flatMap_escapeByte_length (text block)
      have nulFree := zero_not_mem_stringText (some block)
      have textLength : (stringText (some block)).length =
          (text block).length + ((text block).map escapeCharacters).sum + 2 := by
        simp only [stringText, List.length_cons, List.length_append, List.length_nil]
        omega
      unfold printStringPtr
      dsimp only
      rw [PrintProgram.run]
      apply Prints.reserve start
      · intro other same
        cases same
        omega
      intro after same ready length
      have offset := ready.offset
      rcases @PrintBuffer.Holds.write after written [0x22] 0 ready.holds offset
        (by simp only [List.length_singleton]; omega) with ⟨first, storedFirst, holds⟩
      rw [PrintProgram.run_writeThen, storedFirst, Except.ok_bind]
      have body : (if ((text block).map escapeCharacters).sum = 0 then text block
          else (text block).flatMap escapeByte) = (text block).flatMap escapeByte := by
        split
        · rw [flatMap_escapeByte_plain ‹_›]
        · rfl
      rw [body]
      rcases @PrintBuffer.Holds.write _ _ ((text block).flatMap escapeByte) 1 holds
        (by rw [List.length_append, ← offset]; rfl)
        (by simp only [List.length_append, List.length_singleton]; omega) with
        ⟨second, storedSecond, holds⟩
      rw [PrintProgram.run_writeThen, storedSecond, Except.ok_bind]
      rcases @PrintBuffer.Holds.write _ _ [0x22, 0]
        ((text block).length + ((text block).map escapeCharacters).sum + 1) holds
        (by simp only [List.length_append, List.length_singleton]; omega)
        (by simp only [List.length_append, List.length_cons, List.length_nil]; omega) with
        ⟨third, storedThird, holds⟩
      rw [PrintProgram.run_writeThen, storedThird, Except.ok_bind]
      refine Prints.done ⟨rfl, rfl, rfl, id, fun _ => rfl⟩ ⟨?_, ready.depth_eq, ?_, ?_, ?_⟩
      · rw [stringText]
        simp only [List.append_assoc, List.cons_append, List.nil_append] at holds ⊢
        exact holds
      · show after.offset ≤ _
        rw [List.length_append]
        omega
      · exact not_mem_append ready.nulFree nulFree
      · show _ ≤ after.length
        rw [List.length_append]
        omega

/-- What `print_number` formats is a C string. -/
theorem numberBuffer_nulFree {library : CLibrary} {fields : Fields} {printed : Bytes}
    (found : numberBuffer library fields = some printed) : (0 : UInt8) ∉ printed := by
  have formatted : ∀ {precision : Nat} {printed : Bytes},
      formatNumberG library fields.valuedouble precision = some printed -> (0 : UInt8) ∉ printed := by
    intro precision printed found
    unfold formatNumberG at found
    dsimp only at found
    split at found
    · cases found
    · cases found
      exact library.formatG_nulFree precision fields.valuedouble
  unfold numberBuffer at found
  split at found
  · cases found
    decide
  · cases found
    decide
  · split at found
    · cases found
      exact zero_not_mem_decimalText fields.valueint
    · cases first : formatNumberG library fields.valuedouble 15 with
      | none =>
          rw [first] at found
          exact formatted found
      | some short =>
          rw [first] at found
          dsimp only at found
          split at found
          · cases found
            exact formatted first
          · exact formatted found

theorem zero_not_mem_numberText (library : CLibrary) {printed : Bytes}
    (nulFree : (0 : UInt8) ∉ printed) : (0 : UInt8) ∉ numberText library printed := by
  intro inside
  rcases List.mem_map.mp inside with ⟨byte, found, same⟩
  split at same
  · cases same
  · exact nulFree (same ▸ found)

/-- `print_number` prints the text of its number buffer, which must not be longer than
the buffer.  The decimal point of the locale is exchanged for a dot on the way. -/
theorem printNumber_prints (library : CLibrary) (fields : Fields) (start : p.Written depth written) :
    Prints p written
      (match numberBuffer library fields with
        | none => none
        | some printed => if 25 < printed.length then none else some (numberText library printed))
      (fun after bytes => after.Terminated depth bytes) ((printNumber library fields).run p) := by
  unfold printNumber
  cases found : numberBuffer library fields with
  | none => exact Prints.fails
  | some printed =>
      dsimp only
      by_cases long : 25 < printed.length
      · rw [if_pos long, if_pos long]
        exact Prints.fails
      · rw [if_neg long, if_neg long]
        have length : (numberText library printed).length = printed.length := List.length_map _
        apply Prints.store_terminated start
        · rw [length]
        · rw [length]
        · exact zero_not_mem_numberText library (numberBuffer_nulFree found)

/-- A container that is printed around its children.  The depth goes up behind the
opening bracket and down again behind the closing one; the three parts are given as
they are printed at the depth of each. -/
theorem Prints.container {front closing : Bytes} {inner : Option Bytes} {opening loop ending : PrintProgram}
    (opens : Prints p written (some front) (fun after bytes => after.Written depth bytes) (opening.run p))
    (prints : ∀ after bytes, after.format = p.format -> after.Written (depth + 1) bytes ->
      Prints after bytes inner (fun last bytes => last.Written (depth + 1) bytes) (loop.run after))
    (closes : ∀ after bytes, after.format = p.format -> after.Written (depth + 1) bytes ->
      Prints after bytes (some closing) (fun last bytes => last.Terminated (depth + 1) bytes)
        (ending.run after)) :
    Prints p written (inner.map (fun inner => front ++ (inner ++ closing)))
      (fun after bytes => after.Terminated depth bytes)
      (PrintProgram.run (.andThen opening <| .andThen (.nest (· + 1)) <| .andThen loop <|
        .andThen ending (.nest (· - 1))) p) := by
  have shape : inner.map (fun inner => front ++ (inner ++ closing)) = (do
      let opened ← some front
      let rest ← (do
        let content ← inner
        let closed ← (do
          let closed ← some closing
          let nothing ← some []
          some (closed ++ nothing))
        some (content ++ closed))
      some (opened ++ rest)) := by
    cases inner with
    | none => rfl
    | some inner =>
        simp only [Option.map_some, Option.bind_eq_bind, Option.bind_some, List.append_nil]
  rw [shape]
  apply opens.andThen
  rintro opened _ sameOpened - ready
  have inside : PrintBuffer.Written { opened with depth := opened.depth + 1 } (depth + 1) _ :=
    ⟨ready.holds, congrArg Nat.succ ready.depth_eq, ready.offset, ready.nulFree, ready.room⟩
  have same : opened.SameRun { opened with depth := opened.depth + 1 } :=
    ⟨rfl, rfl, rfl, id, fun _ => rfl⟩
  refine Prints.since ?_ same
  apply (prints { opened with depth := opened.depth + 1 } _ sameOpened.format inside).andThen
  rintro filled _ sameFilled - ready
  apply (closes filled _ (sameFilled.format.trans sameOpened.format) ready).andThen
  rintro closed _ - - ended
  refine Prints.done ⟨rfl, rfl, rfl, id, fun _ => rfl⟩ ?_
  rw [List.append_nil]
  refine ⟨ended.holds, ?_, ended.offset, ended.nulFree, ended.room⟩
  show closed.depth - 1 = depth
  rw [ended.depth_eq]
  rfl

theorem printArray_prints {loop : PrintProgram} {inner : Option Bytes}
    (prints : ∀ after bytes, after.format = p.format -> after.Written (depth + 1) bytes ->
      Prints after bytes inner (fun last bytes => last.Written (depth + 1) bytes) (loop.run after))
    (start : p.Written depth written) :
    Prints p written
      (if nestingLimit ≤ depth then none else inner.map (fun inner => 0x5B :: (inner ++ [0x5D])))
      (fun after bytes => after.Terminated depth bytes) ((printArray loop).run p) := by
  unfold printArray
  rw [PrintProgram.run, start.depth_eq]
  by_cases deep : nestingLimit ≤ depth
  · rw [if_pos deep, if_pos deep]
    exact Prints.fails
  · rw [if_neg deep, if_neg deep]
    have opens := @Prints.store_written p written depth 1 [0x5B] [] start (by decide)
      (by decide) (by decide)
    show Prints p written (inner.map (fun inner => [0x5B] ++ (inner ++ [0x5D]))) _ _
    apply Prints.container opens prints
    intro after bytes _ ready
    exact Prints.store_terminated ready rfl (Nat.zero_le _) (by decide)

/-- The closing brace stands behind the tabs of its object. -/
theorem closing_prints (start : p.Written (depth + 1) written) :
    Prints p written (some (objectClosing p.format (depth + 1)))
      (fun after bytes => after.Terminated (depth + 1) bytes)
      (store p (if p.format then p.depth + 1 else 2)
        ((if p.format then List.replicate (p.depth - 1) 0x09 else []) ++ [0x7D, 0]) 0) := by
  have nulFree : (0 : UInt8) ∉ objectClosing p.format (depth + 1) := by
    unfold objectClosing
    intro inside
    rcases List.mem_append.mp inside with inside | inside
    · split at inside
      · exact absurd (List.eq_of_mem_replicate inside) (by decide)
      · cases inside
    · exact absurd (List.mem_singleton.mp inside) (by decide)
  have bytes : (if p.format then List.replicate (p.depth - 1) 0x09 else []) ++ [0x7D, 0] =
      objectClosing p.format (depth + 1) ++ [0] := by
    rw [start.depth_eq, objectClosing, List.append_assoc]
    rfl
  rw [bytes]
  refine Prints.store_terminated start ?_ (Nat.zero_le _) nulFree
  rw [start.depth_eq, objectClosing]
  cases p.format with
  | false => rfl
  | true => simp

theorem printObject_prints {loop : PrintProgram} {inner : Option Bytes}
    (prints : ∀ after bytes, after.format = p.format -> after.Written (depth + 1) bytes ->
      Prints after bytes inner (fun last bytes => last.Written (depth + 1) bytes) (loop.run after))
    (start : p.Written depth written) :
    Prints p written
      (if nestingLimit ≤ depth then none
        else inner.map (fun inner =>
          objectOpening p.format ++ (inner ++ objectClosing p.format (depth + 1))))
      (fun after bytes => after.Terminated depth bytes) ((printObject loop).run p) := by
  unfold printObject
  rw [PrintProgram.run, start.depth_eq]
  by_cases deep : nestingLimit ≤ depth
  · rw [if_pos deep, if_pos deep]
    exact Prints.fails
  · rw [if_neg deep, if_neg deep]
    have opens := @Prints.store_written p written depth ((objectOpening p.format).length + 1)
      (objectOpening p.format) [] start (by simp) (by omega) (by unfold objectOpening; split <;> decide)
    rw [List.append_nil] at opens
    apply Prints.container opens prints
    intro after bytes format ready
    rw [← format]
    exact closing_prints ready

/-- The name of a member, up to its value. -/
theorem printName_prints (name : Option Bytes) (start : p.Written depth written) :
    Prints p written (some (indentation p.format depth ++ (stringText name ++ colon p.format)))
      (fun after bytes => after.Written depth bytes) ((printName name).run p) := by
  have shape : some (indentation p.format depth ++ (stringText name ++ colon p.format)) = (do
      let tabs ← some (indentation p.format depth)
      let rest ← (do
        let quoted ← some (stringText name)
        let behind ← some (colon p.format)
        some (quoted ++ behind))
      some (tabs ++ rest)) := rfl
  rw [shape]
  have tabs : Prints p written (some (indentation p.format depth))
      (fun after bytes => after.Written depth bytes)
      (PrintProgram.run (.reads fun format depth =>
        if format then .store depth (List.replicate depth 0x09) depth (le_refl _) else .stop true) p) := by
    rw [PrintProgram.run, start.depth_eq, indentation]
    by_cases format : p.format = true
    · rw [if_pos format, if_pos format]
      have stores := @Prints.store_written p written depth depth (List.replicate depth 0x09) [] start
        (by simp) (by simp) (fun inside => absurd (List.eq_of_mem_replicate inside) (by decide))
      rw [List.append_nil, List.length_replicate] at stores
      exact stores
    · rw [if_neg format, if_neg format]
      apply Prints.done (.refl p)
      rw [List.append_nil]
      exact start
  apply tabs.andThen
  rintro indented _ sameIndented - ready
  apply (printStringPtr_prints name ready).andThen
  rintro named _ sameNamed - ended
  rcases ended.updateOffset with ⟨moved, updated, sameMoved, ready, -⟩
  rw [PrintProgram.run_updateThen, updated, Except.ok_bind]
  refine Prints.since ?_ sameMoved
  have format : moved.format = p.format :=
    sameMoved.format.trans (sameNamed.format.trans sameIndented.format)
  have stores := @Prints.store_written moved _ depth (colon p.format).length (colon p.format) [] ready
    (by simp) (by omega) (by unfold colon; split <;> decide)
  rw [List.append_nil] at stores
  rw [PrintProgram.run, format]
  exact stores

/-- What follows a member. -/
theorem printObjectSeparator_prints (isLast : Bool) (start : p.Written depth written) :
    Prints p written (some (objectSeparator p.format isLast))
      (fun after bytes => after.Written depth bytes) ((printObjectSeparator isLast).run p) :=
  Prints.store_written start (by simp [objectSeparator, Nat.add_assoc]) (Nat.le_refl _)
    (by unfold objectSeparator; cases isLast <;> cases p.format <;> decide)

theorem printArraySeparator_prints (start : p.Written depth written) :
    Prints p written (some (arraySeparator p.format))
      (fun after bytes => after.Written depth bytes) (printArraySeparator.run p) :=
  Prints.store_written start (by simp [arraySeparator]) (Nat.le_refl _)
    (by unfold arraySeparator; split <;> decide)

end Values

/-- What a value prints, wherever it is printed.  The induction on the tree goes by
this. -/
def PrintsRendering (library : CLibrary) (item : Item) : Prop :=
  ∀ (p : PrintBuffer) (depth : Nat) (written : Bytes), p.Written depth written ->
    Prints p written (rendering library p.format depth item)
      (fun after bytes => after.Terminated depth bytes) ((printValue library item).run p)

theorem printArrayLoop_prints {library : CLibrary} {items : List Item}
    (values : ∀ item ∈ items, PrintsRendering library item) {p : PrintBuffer} {depth : Nat}
    {written : Bytes} (start : p.Written depth written) :
    Prints p written (renderElements library p.format depth items)
      (fun after bytes => after.Written depth bytes) ((printArrayLoop library items).run p) := by
  induction items generalizing p written with
  | nil =>
      apply Prints.done (.refl p)
      rw [List.append_nil]
      exact start
  | cons item rest hypothesis =>
      have shape : renderElements library p.format depth (item :: rest) = (do
          let value ← rendering library p.format depth item
          let behind ← (do
            let separator ← some (if rest.isEmpty then [] else arraySeparator p.format)
            let others ← renderElements library p.format depth rest
            some (separator ++ others))
          some (value ++ behind)) := by
        rw [renderElements]
        cases rendering library p.format depth item with
        | none => rfl
        | some value =>
            cases renderElements library p.format depth rest with
            | none => rfl
            | some others => rfl
      rw [shape, printArrayLoop, PrintProgram.run]
      apply (values item List.mem_cons_self p depth written start).andThen
      rintro valued _ sameValued - ended
      rcases ended.updateOffset with ⟨moved, updated, sameMoved, ready, -⟩
      rw [PrintProgram.run_updateThen, updated, Except.ok_bind]
      refine Prints.since ?_ sameMoved
      have format : moved.format = p.format := sameMoved.format.trans sameValued.format
      have separates : ∀ bytes, moved.Written depth bytes ->
          Prints moved bytes (some (if rest.isEmpty then [] else arraySeparator p.format))
          (fun after bytes => after.Written depth bytes)
          (PrintProgram.run (if rest.isEmpty then .stop true else printArraySeparator) moved) := by
        intro bytes ready
        by_cases last : rest.isEmpty = true
        · rw [if_pos last, if_pos last]
          apply Prints.done (.refl moved)
          rw [List.append_nil]
          exact ready
        · rw [if_neg last, if_neg last, ← format]
          exact printArraySeparator_prints ready
      apply (separates _ ready).andThen
      rintro separated _ sameSeparated - ready
      have restFormat : separated.format = p.format := sameSeparated.format.trans format
      rw [← restFormat]
      exact hypothesis (fun other inside => values other (List.mem_cons_of_mem _ inside)) ready

theorem printObjectLoop_prints {library : CLibrary} {items : List Item}
    (values : ∀ item ∈ items, PrintsRendering library item) {p : PrintBuffer} {depth : Nat}
    {written : Bytes} (start : p.Written depth written) :
    Prints p written (renderMembers library p.format depth items)
      (fun after bytes => after.Written depth bytes) ((printObjectLoop library items).run p) := by
  induction items generalizing p written with
  | nil =>
      apply Prints.done (.refl p)
      rw [List.append_nil]
      exact start
  | cons item rest hypothesis =>
      have shape : renderMembers library p.format depth (item :: rest) = (do
          let name ← some (indentation p.format depth ++ (stringText item.string ++ colon p.format))
          let behind ← (do
            let value ← rendering library p.format depth item
            let behind ← (do
              let separator ← some (objectSeparator p.format rest.isEmpty)
              let others ← renderMembers library p.format depth rest
              some (separator ++ others))
            some (value ++ behind))
          some (name ++ behind)) := by
        rw [renderMembers]
        cases rendering library p.format depth item with
        | none => rfl
        | some value =>
            cases renderMembers library p.format depth rest with
            | none => rfl
            | some others =>
                simp only [Option.bind_eq_bind, Option.bind_some, List.append_assoc]
      rw [shape, printObjectLoop, PrintProgram.run]
      apply (printName_prints item.string start).andThen
      rintro named _ sameNamed - ready
      rw [← sameNamed.format]
      apply (values item List.mem_cons_self named depth _ ready).andThen
      rintro valued _ sameValued - ended
      rcases ended.updateOffset with ⟨moved, updated, sameMoved, ready, -⟩
      rw [PrintProgram.run_updateThen, updated, Except.ok_bind]
      refine Prints.since ?_ sameMoved
      rw [← sameValued.format, ← sameMoved.format]
      apply (printObjectSeparator_prints rest.isEmpty ready).andThen
      rintro separated _ sameSeparated - ready
      rw [← sameSeparated.format]
      exact hypothesis (fun other inside => values other (List.mem_cons_of_mem _ inside)) ready

/-- The printer prints the rendering. -/
theorem printValue_prints (library : CLibrary) (item : Item) : PrintsRendering library item := by
  induction item using Item.induct with
  | node fields child headPrev values =>
      intro p depth written start
      unfold rendering printValue
      cases fields.type_.base with
      | null => exact @Prints.store_terminated _ _ _ _ 0 [0x6E, 0x75, 0x6C, 0x6C] start rfl (by decide) (by decide)
      | false =>
          exact @Prints.store_terminated _ _ _ _ 0 [0x66, 0x61, 0x6C, 0x73, 0x65] start rfl (by decide) (by decide)
      | true => exact @Prints.store_terminated _ _ _ _ 0 [0x74, 0x72, 0x75, 0x65] start rfl (by decide) (by decide)
      | number => exact printNumber_prints library fields start
      | raw =>
          cases fields.valuestring with
          | none => exact Prints.fails
          | some block =>
              exact Prints.store_terminated start rfl (Nat.zero_le _) (zero_not_mem_text block)
      | string => exact printStringPtr_prints fields.valuestring start
      | array =>
          apply printArray_prints _ start
          intro after bytes format ready
          rw [← format]
          exact printArrayLoop_prints values ready
      | object =>
          apply printObject_prints _ start
          intro after bytes format ready
          rw [← format]
          exact printObjectLoop_prints values ready
      | invalid => exact Prints.fails

/-! ## The entry points -/

/-- The text moves to a block of its own size, with its terminator and nothing behind
it. -/
theorem shrink_returns {p : PrintBuffer} {depth : Nat} {bytes : Bytes} (ready : p.Terminated depth bytes)
    (offset : p.offset = bytes.length) :
    Returns (shrink p) fun result =>
      (∀ block, result.1 = some block -> block.bytes = bytes ++ [0]) ∧
      (p.allocator.hooks.AlwaysSucceed -> result.1.isSome = true) := by
  rcases ready.holds with ⟨block, found, length, rest, split⟩
  have room := ready.room
  have front : block.bytes.take (p.offset + 1) = bytes ++ [0] := by
    rw [offset, split, List.take_append_of_le_length (by simp), List.take_of_length_le (by simp)]
  unfold shrink
  rw [found]
  dsimp only
  by_cases hasReallocate : p.allocator.hooks.hasReallocate = true
  · rw [if_pos hasReallocate]
    cases shrunk : p.allocator.reallocate block (p.offset + 1) with
    | mk printed allocator =>
        cases printed with
        | none =>
            exact Returns.ok ⟨fun _ impossible => (nomatch impossible), fun succeeds =>
              absurd succeeds (Allocator.not_succeeds (Or.inl shrunk))⟩
        | some printed =>
            refine Returns.ok ⟨?_, fun _ => rfl⟩
            rintro _ same
            cases same
            unfold Allocator.reallocate at shrunk
            injection shrunk with found _
            split at found
            · cases found
              show block.bytes.take (p.offset + 1) ++ _ = _
              rw [front, List.drop_of_length_le, List.append_nil]
              simp only [List.length_map, List.length_range]
              omega
            · cases found
  · rw [if_neg hasReallocate]
    cases obtained : p.allocator.allocate (p.offset + 1) with
    | mk printed allocator =>
        cases printed with
        | none =>
            exact Returns.ok ⟨fun _ impossible => (nomatch impossible), fun succeeds =>
              absurd succeeds (@Allocator.not_succeeds _ _ block _ (Or.inr obtained))⟩
        | some printed =>
            have size := Allocator.allocate_eq_some obtained
            have least : min p.length (p.offset + 1) = p.offset + 1 := by omega
            dsimp only
            rw [least, if_neg (by omega), front]
            rcases @Block.write_eq printed [] (bytes ++ [0]) printed.bytes rfl
              (by rw [size, offset, List.length_append]; exact Nat.le_of_eq (Nat.zero_add _)) with
              ⟨copy, stored, copyLength, behind, copySplit⟩
            rw [List.length_nil] at stored
            rw [stored]
            have full := congrArg List.length copySplit
            simp only [List.length_append, List.length_nil, List.length_singleton, copyLength, size,
              offset] at full
            rcases @Block.write_eq copy bytes [0] ([0] ++ behind) (by rw [copySplit]; simp)
              (by rw [copyLength, size, offset]; exact Nat.le_refl _) with
              ⟨last, terminated, lastLength, tail, lastSplit⟩
            dsimp only
            rw [offset, terminated]
            refine Returns.ok ⟨?_, fun _ => rfl⟩
            rintro _ same
            cases same
            have whole := congrArg List.length lastSplit
            simp only [List.length_append, List.length_singleton, lastLength, copyLength, size,
              offset] at whole
            rw [lastSplit, List.length_eq_zero_iff.mp (show tail.length = 0 by omega), List.append_nil]

/-- The rendering of a whole tree fits into the sizes the printer supports: it counts
in `int`s, and keeps two bytes in reserve. -/
def FitsIntMax (text : Bytes) : Prop := text.length + 2 ≤ intMax

/-- What the two entry points print: a block that holds the rendering and its
terminator, if there is one and memory allows. -/
theorem printImpl_returns (library : CLibrary) (item : Item) (format : Bool) (allocator : Allocator) :
    Returns (printImpl library item format allocator) fun result =>
      (∀ block, result.1 = some block -> ∃ text, rendering library format 0 item = some text ∧
        (0 : UInt8) ∉ text ∧ block.bytes = text ++ [0]) ∧
      (allocator.hooks.AlwaysSucceed ->
        ∀ text, rendering library format 0 item = some text -> FitsIntMax text ->
          result.1.isSome = true) := by
  unfold printImpl
  cases obtained : allocator.allocate defaultBufferSize with
  | mk buffer after =>
      cases buffer with
      | none =>
          refine Returns.ok ⟨fun _ impossible => (nomatch impossible), ?_⟩
          intro succeeds
          exact absurd succeeds (@Allocator.not_succeeds _ _ ⟨0, []⟩ _ (Or.inr obtained))
      | some block =>
          have hooksEq : after.hooks = (allocator.hooks.request defaultBufferSize).2 :=
            (congrArg (Allocator.hooks ∘ Prod.snd) obtained).symm
          have succeeding : allocator.hooks.AlwaysSucceed -> after.hooks.AlwaysSucceed := by
            intro succeeds
            rw [hooksEq]
            exact Hooks.request_succeeds succeeds defaultBufferSize
          have start : PrintBuffer.Written
              { buffer := some block, length := defaultBufferSize, offset := 0, depth := 0,
                noalloc := false, format := format, allocator := after } 0 [] :=
            ⟨⟨block, rfl, Allocator.allocate_eq_some obtained, block.bytes, rfl⟩, rfl, rfl,
              List.not_mem_nil, Or.inl (by show 0 < defaultBufferSize; decide)⟩
          dsimp only
          rcases printValue_prints library item _ 0 [] start with ⟨⟨printed, p⟩, ends, succeeded, enough⟩
          rw [ends, Except.ok_bind]
          cases printed with
          | false =>
              refine Returns.ok ⟨fun _ impossible => (nomatch impossible), ?_⟩
              intro succeeds text found fits
              exact absurd (enough text found ⟨fits, fun impossible => (nomatch impossible),
                fun _ => succeeding succeeds⟩) Bool.false_ne_true
          | true =>
              rcases succeeded rfl with ⟨same, text, found, ended⟩
              rcases ended.updateOffset with ⟨moved, updated, sameMoved, ready, last⟩
              dsimp only
              rw [if_pos rfl, updated, Except.ok_bind]
              apply Returns.mono (shrink_returns last ready.offset)
              rintro result ⟨holds, granted⟩
              constructor
              · intro block same
                exact ⟨text, found, last.nulFree, holds block same⟩
              · intro succeeds _ _ _
                exact granted (sameMoved.succeeds (same.succeeds (succeeding succeeds)))

end CJson
