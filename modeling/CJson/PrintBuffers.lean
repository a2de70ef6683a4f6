import CJson.PrintSteps
import CJson.ParseSafety

/-!
# The entry points of the printer

The entry points differ in where the first block comes from and in who may
exchange it.  They print the same text: `cjson_print` into a block of its own
size, `cjson_print_buffered` into a block that has grown as far as it had to,
and `cjson_print_preallocated` into the memory of the caller, if that has two
bytes to spare.
-/

namespace CJson

open CString PrintBuffer

theorem PrintBuffer.newSize_le {needed newsize : Nat} (found : newSize needed = some newsize) :
    newsize ≤ intMax := by
  unfold newSize at found
  split at found
  · split at found
    · cases found
      exact le_rfl
    · cases found
  · cases found
    omega

/-- What `ensure` can do: nothing at all, or ask for a larger block.  A buffer that is
not its own is never exchanged. -/
theorem PrintBuffer.ensure_cases {p q : PrintBuffer} {needed : Nat} {granted : Bool}
    (ran : p.ensure needed = .ok (granted, q)) :
    q = p ∨ ∃ block newsize, p.buffer = some block ∧ p.noalloc = false ∧
      newSize (needed + p.offset + 1) = some newsize ∧ p.grow block newsize = .ok (granted, q) := by
  unfold PrintBuffer.ensure at ran
  cases found : p.buffer with
  | none =>
      rw [found] at ran
      cases ran
      exact Or.inl rfl
  | some block =>
      rw [found] at ran
      dsimp only at ran
      split at ran
      · cases ran
        exact Or.inl rfl
      split at ran
      · cases ran
        exact Or.inl rfl
      split at ran
      · cases ran
        exact Or.inl rfl
      split at ran
      · cases ran
        exact Or.inl rfl
      rename_i owned
      cases sized : newSize (needed + p.offset + 1) with
      | none =>
          rw [sized] at ran
          cases ran
          exact Or.inl rfl
      | some newsize =>
          rw [sized] at ran
          exact Or.inr ⟨block, newsize, rfl, by simpa using owned, rfl, ran⟩

/-- The outcomes of a request for a larger block: it is refused and the old block
is released, or the new one takes its place. -/
theorem PrintBuffer.grow_cases {p q : PrintBuffer} {block : Block} {newsize : Nat} {granted : Bool}
    (ran : p.grow block newsize = .ok (granted, q)) :
    (granted = false ∧ q.buffer = none ∧ q.length = 0) ∨
      (granted = true ∧ ∃ newbuffer, q.buffer = some newbuffer ∧ q.length = newsize) := by
  unfold PrintBuffer.grow at ran
  split at ran
  · split at ran
    · cases ran
      exact Or.inl ⟨rfl, rfl, rfl⟩
    · cases ran
      exact Or.inr ⟨rfl, _, rfl, rfl⟩
  · split at ran
    · cases ran
      exact Or.inl ⟨rfl, rfl, rfl⟩
    · split at ran
      · cases ran
      · split at ran
        · cases ran
        · cases ran
          exact Or.inr ⟨rfl, _, rfl, rfl⟩

theorem PrintBuffer.write_eq_ok {p q : PrintBuffer} {index : Nat} {bytes : Bytes}
    (ran : p.write index bytes = .ok q) :
    ∃ block after, p.buffer = some block ∧ block.write (p.offset + index) bytes = some after ∧
      q = { p with buffer := some after } := by
  unfold PrintBuffer.write at ran
  cases found : p.buffer with
  | none =>
      rw [found] at ran
      cases ran
  | some block =>
      rw [found] at ran
      cases stored : block.write (p.offset + index) bytes with
      | none =>
          simp only [stored] at ran
          cases ran
      | some after =>
          simp only [stored] at ran
          cases ran
          exact ⟨block, after, rfl, stored, rfl⟩

/-- Sizes stay below `INT_MAX`. -/
theorem kept_length_le : Kept (fun p => p.length ≤ intMax) where
  ensure := by
    intro p q needed granted bounded ran
    rcases ensure_cases ran with same | ⟨block, newsize, _, _, sized, grown⟩
    · rw [same]
      exact bounded
    · rcases grow_cases grown with ⟨_, _, length⟩ | ⟨_, _, _, length⟩
      · rw [length]
        exact Nat.zero_le intMax
      · rw [length]
        exact newSize_le sized
  write := by
    intro p q index bytes bounded ran
    rcases write_eq_ok ran with ⟨_, _, _, _, rfl⟩
    exact bounded
  move := fun _ _ bounded => bounded

theorem Block.write_eq_some {block after : Block} {start : Nat} {bytes : Bytes}
    (stored : block.write start bytes = some after) :
    after.number = block.number ∧ after.bytes.length = block.bytes.length := by
  unfold Block.write at stored
  split at stored
  · rename_i fits
    cases stored
    refine ⟨rfl, ?_⟩
    simp only [List.length_append, List.length_take, List.length_drop]
    omega
  · cases stored

/-- A block that belongs to the caller stays in place. -/
theorem kept_block (size : Nat) :
    Kept (fun p => p.noalloc = true ∧ ∃ block, p.buffer = some block ∧ block.bytes.length = size) where
  ensure := by
    rintro p q needed granted ⟨fixed, there⟩ ran
    rcases ensure_cases ran with same | ⟨_, _, _, owned, _⟩
    · rw [same]
      exact ⟨fixed, there⟩
    · rw [fixed] at owned
      cases owned
  write := by
    rintro p q index bytes ⟨fixed, block, found, length⟩ ran
    rcases write_eq_ok ran with ⟨other, after, foundOther, stored, rfl⟩
    cases found.symm.trans foundOther
    exact ⟨fixed, after, rfl, (Block.write_eq_some stored).2.trans length⟩
  move := fun _ _ kept => kept

section Entry

variable {library : CLibrary} {item : Item} {format : Bool}

/-- The state in which the printer starts to work in a block. -/
def startIn (block : Block) (length : Nat) (noalloc format : Bool) (allocator : Allocator) : PrintBuffer where
  buffer := some block
  length := length
  offset := 0
  depth := 0
  noalloc := noalloc
  format := format
  allocator := allocator

theorem startIn_written {block : Block} {length : Nat} {noalloc : Bool} {allocator : Allocator}
    (size : block.bytes.length = length)
    (room : 0 < length ∨ noalloc = true ∨ allocator.hooks.hasReallocate = true) :
    (startIn block length noalloc format allocator).Written 0 [] := by
  refine ⟨⟨block, rfl, size, block.bytes, rfl⟩, rfl, rfl, List.not_mem_nil, ?_⟩
  rcases Nat.eq_zero_or_pos length with empty | positive
  · exact Or.inr ⟨empty, room.resolve_left (by omega)⟩
  · exact Or.inl positive

/-- A text that has been printed fits into the sizes the printer supports; what has
been printed is the rendering of the tree and a terminator. -/
theorem fits_of_printed {allocator after : Allocator} {block : Block}
    (printed : printImpl library item format allocator = .ok (some block, after)) :
    ∃ r, rendering library format 0 item = some r ∧ (0 : UInt8) ∉ r ∧ block.bytes = r ++ [0] ∧
      FitsIntMax r := by
  obtain ⟨r, rendered, nulFree, holds⟩ :=
    ((printImpl_returns library item format allocator).elim printed).1 block rfl
  refine ⟨r, rendered, nulFree, holds, ?_⟩
  unfold printImpl at printed
  cases obtained : allocator.allocate defaultBufferSize with
  | mk buffer left =>
      cases buffer with
      | none =>
          rw [obtained] at printed
          cases printed
      | some first =>
          rw [obtained] at printed
          have start := @startIn_written format first defaultBufferSize false left
            (Allocator.allocate_eq_some obtained) (Or.inl (by decide))
          obtain ⟨⟨succeeded, p⟩, ends, prints, _⟩ := printValue_prints library item _ 0 [] start
          have small : defaultBufferSize ≤ intMax := by decide
          have bounded : p.length ≤ intMax :=
            (printValue library item).keeps kept_length_le small ends
          cases succeeded with
          | false =>
              rw [startIn] at ends
              simp only [ends, Except.ok_bind] at printed
              cases printed
          | true =>
              obtain ⟨_, other, otherRendered, ended⟩ := prints rfl
              cases rendered.symm.trans otherRendered
              have room := ended.room
              rw [List.nil_append] at room
              exact le_trans room bounded

/-- `cjson_print_buffered` prints the same text, in front of whatever else is in
its block. -/
theorem printBuffered_returns {allocator : Allocator} {prebuffer : Int} {r : Bytes}
    (rendered : rendering library format 0 item = some r) (fits : FitsIntMax r)
    (positive : 0 ≤ prebuffer) (room : prebuffer = 0 -> allocator.hooks.hasReallocate = true)
    (succeeds : allocator.hooks.AlwaysSucceed) :
    ∃ buffered last, cjsonPrintBuffered library item prebuffer format allocator =
      .ok (some buffered, last) ∧ ∃ rest, buffered.bytes = r ++ 0 :: rest := by
  unfold cjsonPrintBuffered
  rw [if_neg (not_lt.mpr positive)]
  cases obtained : allocator.allocate prebuffer.toNat with
  | mk buffer left =>
      cases buffer with
      | none => exact absurd succeeds (@Allocator.not_succeeds _ _ ⟨0, []⟩ _ (Or.inr obtained))
      | some first =>
          have hooksEq : left.hooks = (allocator.hooks.request prebuffer.toNat).2 :=
            (congrArg (Allocator.hooks ∘ Prod.snd) obtained).symm
          have roomLeft : 0 < prebuffer.toNat ∨ false = true ∨ left.hooks.hasReallocate = true := by
            by_cases empty : prebuffer = 0
            · rw [hooksEq]
              exact Or.inr (Or.inr (room empty))
            · exact Or.inl (by omega)
          have start := @startIn_written format first _ false left
            (Allocator.allocate_eq_some obtained) roomLeft
          obtain ⟨⟨succeeded, p⟩, ends, prints, enough⟩ := printValue_prints library item _ 0 [] start
          have done : succeeded = true := by
            apply enough r rendered
            refine ⟨fits, (fun fixed => nomatch fixed), fun _ => ?_⟩
            show left.hooks.AlwaysSucceed
            rw [hooksEq]
            exact Hooks.request_succeeds succeeds prebuffer.toNat
          subst done
          obtain ⟨_, text, textRendered, ended⟩ := prints rfl
          cases rendered.symm.trans textRendered
          obtain ⟨block, found, _, rest, split⟩ := ended.holds
          rw [startIn] at ends
          simp only [ends, Except.ok_bind, if_true]
          refine ⟨block, p.allocator, ?_, rest, ?_⟩
          · rw [found]
          · rw [split, List.nil_append, List.append_assoc]
            rfl

/-- `cjson_print_preallocated` succeeds exactly when the memory has two bytes more
than the text, and stays inside the part it has been given. -/
theorem printPreallocated_returns {allocator : Allocator} {length : Int} {memory r : Bytes}
    (rendered : rendering library format 0 item = some r) (fits : FitsIntMax r)
    (inside : length.toNat ≤ memory.length) :
    ∃ returned stored last,
      cjsonPrintPreallocated library item (some memory) length format allocator =
        .ok (returned, some stored, last) ∧
      stored.length = memory.length ∧ stored.drop length.toNat = memory.drop length.toNat ∧
      (returned = true ↔ (r.length : Int) + 2 ≤ length) ∧
      (returned = true -> ∃ rest, stored = r ++ 0 :: rest) := by
  unfold cjsonPrintPreallocated
  by_cases negative : length < 0
  · simp only [if_pos negative]
    refine ⟨false, memory, allocator, rfl, rfl, rfl, ?_, fun impossible => nomatch impossible⟩
    exact iff_of_false Bool.false_ne_true (by omega)
  · simp only [if_neg negative]
    have size : (memory.take length.toNat).length = length.toNat := List.length_take_of_le inside
    have start := @startIn_written format ⟨allocator.calls.length, memory.take length.toNat⟩ _ true
      allocator size (Or.inr (Or.inl rfl))
    obtain ⟨⟨returned, p⟩, ends, prints, enough⟩ := printValue_prints library item _ 0 [] start
    obtain ⟨_, block, found, blockSize⟩ :=
      (printValue library item).keeps (kept_block length.toNat)
        (⟨rfl, _, rfl, size⟩ : (startIn _ _ true format allocator).noalloc = true ∧ _) ends
    rw [startIn] at ends
    simp only [ends, Except.ok_bind, found, Option.map_some]
    refine ⟨returned, _, p.allocator, rfl, ?_, ?_, ?_, ?_⟩
    · rw [List.length_append, blockSize, List.length_drop]
      omega
    · rw [List.drop_append_of_le_length (by omega), List.drop_of_length_le (by omega), List.nil_append]
    · constructor
      · intro succeeded
        obtain ⟨same, text, textRendered, ended⟩ := prints succeeded
        cases rendered.symm.trans textRendered
        have room := ended.room
        rw [List.nil_append, same.length rfl] at room
        have lengthEq : (startIn ⟨allocator.calls.length, memory.take length.toNat⟩ length.toNat true
          format allocator).length = length.toNat := rfl
        omega
      · intro room
        apply enough r rendered
        refine ⟨fits, fun _ => ?_, (fun owned => nomatch owned)⟩
        show r.length + 2 ≤ length.toNat
        omega
    · intro succeeded
      obtain ⟨_, text, textRendered, ended⟩ := prints succeeded
      cases rendered.symm.trans textRendered
      obtain ⟨other, otherFound, _, rest, split⟩ := ended.holds
      cases found.symm.trans otherFound
      refine ⟨rest ++ memory.drop length.toNat, ?_⟩
      rw [split, List.nil_append, List.append_assoc, List.append_assoc]
      rfl

end Entry

/-- The entry points with a buffer of their own and with the caller's memory print
this text.  The first may start from an empty block if that can be reallocated;
the second succeeds from two spare bytes on, whatever the memory held before, and
never touches what is behind the length it was given. -/
structure PrintsEverywhere (library : CLibrary) (item : Item) (format : Bool) (r : Bytes) : Prop where
  nulFree : (0 : UInt8) ∉ r
  buffered : ∀ (prebuffer : Int) (allocator : Allocator), 0 ≤ prebuffer ->
    (prebuffer = 0 -> allocator.hooks.hasReallocate = true) -> allocator.hooks.AlwaysSucceed ->
    ∃ block last, cjsonPrintBuffered library item prebuffer format allocator =
      .ok (some block, last) ∧ ∃ rest, block.bytes = r ++ 0 :: rest
  preallocated : ∀ (length : Int) (memory : Bytes) (allocator : Allocator),
    length.toNat ≤ memory.length ->
    ∃ returned stored last,
      cjsonPrintPreallocated library item (some memory) length format allocator =
        .ok (returned, some stored, last) ∧
      stored.length = memory.length ∧ stored.drop length.toNat = memory.drop length.toNat ∧
      (returned = true ↔ (r.length : Int) + 2 ≤ length) ∧
      (returned = true -> ∃ rest, stored = r ++ 0 :: rest)

/-- What `cjson_print` or `cjson_print_unformatted` returns for a tree is the text
that the other entry points print. -/
theorem print_entry_points_agree (library : CLibrary) (item : Item) (format : Bool)
    {allocator after : Allocator} {block : Block}
    (printed : (if format then cjsonPrint library item allocator
      else cjsonPrintUnformatted library item allocator) = .ok (some block, after)) :
    ∃ r, block.bytes = r ++ [0] ∧ PrintsEverywhere library item format r := by
  have impl : printImpl library item format allocator = .ok (some block, after) := by
    cases format
    · exact printed
    · exact printed
  obtain ⟨r, rendered, nulFree, holds, fits⟩ := fits_of_printed impl
  refine ⟨r, holds, nulFree, ?_, ?_⟩
  · intro prebuffer allocator positive room succeeds
    exact printBuffered_returns rendered fits positive room succeeds
  · intro length memory allocator inside
    exact printPreallocated_returns rendered fits inside

/-- The tree `{"k": ["a\"b\n", null]}`. -/
def quotedTree : Item :=
  .mk { type_ := { base := .object } }
    [.mk { type_ := { base := .array }, string := some [0x6B, 0] }
      [.mk { type_ := { base := .string }, valuestring := some [0x61, 0x22, 0x62, 10, 0] } [] .null,
        .mk { type_ := { base := .null } } [] .null] (.at 1)] (.at 0)

theorem quotedTree_rendering : rendering decimalLibrary true 0 quotedTree =
    some ([0x7B, 0x0A, 0x09, 0x22, 0x6B, 0x22, 0x3A, 0x09, 0x5B, 0x22, 0x61, 0x5C, 0x22, 0x62, 0x5C, 0x6E, 0x22] ++
      [0x2C, 0x20, 0x6E, 0x75, 0x6C, 0x6C, 0x5D, 0x0A, 0x7D]) := rfl

/-- A name, a string with escapes, and the indentation between them. -/
theorem print_entry_points_agree_quoted :
    ∃ block after, cjsonPrint decimalLibrary quotedTree ⟨⟨fun _ _ => true, true⟩, fun _ _ => 0, []⟩ =
        .ok (some block, after) ∧
      ∃ r, block.bytes = r ++ [0] ∧ PrintsEverywhere decimalLibrary quotedTree true r := by
  obtain ⟨⟨block, after⟩, ran, _, granted⟩ := printImpl_returns decimalLibrary quotedTree true
    ⟨⟨fun _ _ => true, true⟩, fun _ _ => 0, []⟩
  obtain ⟨printed, rfl⟩ := Option.isSome_iff_exists.mp
    (granted (fun _ _ => rfl) _ quotedTree_rendering (show 26 + 2 ≤ intMax by decide))
  have entry : (if true then cjsonPrint decimalLibrary quotedTree ⟨⟨fun _ _ => true, true⟩, fun _ _ => 0, []⟩
      else cjsonPrintUnformatted decimalLibrary quotedTree ⟨⟨fun _ _ => true, true⟩, fun _ _ => 0, []⟩) =
        .ok (some printed, after) := by
    rw [if_pos rfl, cjsonPrint]
    exact ran
  rw [if_pos rfl] at entry
  exact ⟨printed, after, entry, print_entry_points_agree decimalLibrary _ true entry⟩

end CJson
