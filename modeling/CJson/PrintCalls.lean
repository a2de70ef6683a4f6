import CJson.PrintTrace

/-!
# The calls of `ensure` in a run

The printer is a program over its buffer, and so the calls of `ensure` in a run,
and the states in which they are made, can be listed.  Whatever is stored moves
`offset` by no more than has been reserved for it, and so there is a byte to
spare at every call; unless the buffer had no byte to begin with.
-/

namespace CJson

open CString PrintBuffer

/-- The calls of `ensure` in a run: the buffer, and what was needed.  What comes
after a step that has failed is not run, and calls nothing. -/
def PrintProgram.calls : PrintProgram -> PrintBuffer -> List (PrintBuffer × Nat)
  | .ensure needed, p => [(p, needed)]
  | .store needed _ _ _, p => [(p, needed)]
  | .andThen first second, p =>
      first.calls p ++
        match first.run p with
        | .ok (true, after) => second.calls after
        | _ => []
  | .reads program, p => (program p.format p.depth).calls p
  | _, _ => []

/-! ## A byte to spare -/

/-- The buffer has a block, and a byte of it is left behind `offset`; a buffer without
any byte can be reallocated, or not be exchanged at all.  It is what keeps the copy of
`offset + 1` bytes inside the old block, and every operation but an unlucky first one
keeps it. -/
structure PrintBuffer.Spare (p : PrintBuffer) : Prop where
  block : ∃ block, p.buffer = some block ∧ block.bytes.length = p.length
  room : p.offset < p.length ∨
    (p.offset = 0 ∧ p.length = 0 ∧ (p.noalloc = true ∨ p.allocator.hooks.hasReallocate = true))
  bounded : p.length ≤ intMax

/-- After an `ensure` the bytes in front of `offset` are as they were, be it in the
same block or in another one. -/
def PrintBuffer.KeepsFront (p after : PrintBuffer) : Prop :=
  ∃ old new, p.buffer = some old ∧ after.buffer = some new ∧ after.offset = p.offset ∧
    new.bytes.length = after.length ∧ new.bytes.take p.offset = old.bytes.take p.offset

/-- `ensure` comes to the copy into a block of its own: none of its tests has turned
it away, there is no `reallocate`, and the request for the new block is granted. -/
def PrintBuffer.Copies (p : PrintBuffer) (needed : Nat) : Prop :=
  ¬ (0 < p.length ∧ p.length ≤ p.offset) ∧ needed ≤ intMax ∧ p.length < needed + p.offset + 1 ∧
    p.noalloc = false ∧ p.allocator.hooks.hasReallocate = false ∧
    ∃ newsize, newSize (needed + p.offset + 1) = some newsize ∧
      (p.allocator.hooks.request newsize).1 = true

/-- What is asked of a call of `ensure`: if it succeeds, what is in front of `offset`
is kept and there is room for what is needed, within `INT_MAX`; and the copy of
`offset + 1` bytes stays inside the old block. -/
structure EnsuresSafely (p : PrintBuffer) (needed : Nat) : Prop where
  ends : ∃ result, p.ensure needed = .ok result
  succeeds : ∀ after, p.ensure needed = .ok (true, after) ->
    p.KeepsFront after ∧ p.offset + needed + 1 ≤ after.length ∧ after.length ≤ intMax
  copies : p.Copies needed -> ∃ block, p.buffer = some block ∧ block.bytes.length = p.length ∧
    p.offset + 1 ≤ p.length

namespace PrintBuffer.Spare

variable {p q : PrintBuffer} {needed : Nat}

theorem offset_le (spare : p.Spare) : p.offset ≤ p.length := by
  rcases spare.room with inside | ⟨start, empty, _⟩ <;> omega

/-- What a call of `ensure` does: it leaves the buffer alone, or moves it. -/
theorem ensure (spare : p.Spare) (needed : Nat) :
    Returns (p.ensure needed) fun result => result.1 = true ->
      p.KeepsFront result.2 ∧ p.offset + needed + 1 ≤ result.2.length ∧ result.2.Spare := by
  rcases spare.block with ⟨block, found, length⟩
  unfold PrintBuffer.ensure
  rw [found]
  dsimp only
  apply Returns.ite
  · exact fun _ => Returns.ok (fun impossible => nomatch impossible)
  intro _
  apply Returns.ite
  · exact fun _ => Returns.ok (fun impossible => nomatch impossible)
  intro _
  apply Returns.ite
  · intro fits
    refine Returns.ok (fun _ => ⟨⟨block, block, found, found, rfl, length, rfl⟩, ?_, spare⟩)
    show p.offset + needed + 1 ≤ p.length
    omega
  intro larger
  apply Returns.ite
  · exact fun _ => Returns.ok (fun impossible => nomatch impossible)
  intro owned
  cases sized : newSize (needed + p.offset + 1) with
  | none => exact Returns.ok (fun impossible => nomatch impossible)
  | some newsize =>
      have enough := newSize_eq_some sized
      have bound := newSize_le sized
      have spareRoom : p.offset < p.length ∨
          (p.offset ≤ p.length ∧ p.allocator.hooks.hasReallocate = true) := by
        rcases spare.room with inside | ⟨_, _, noalloc | reallocates⟩
        · exact Or.inl inside
        · exact absurd noalloc owned
        · exact Or.inr ⟨spare.offset_le, reallocates⟩
      apply (grow_spec length (by omega) spareRoom).mono
      rintro ⟨granted, after⟩ ⟨succeeded, _⟩ grown
      rcases succeeded grown with ⟨newbuffer, same, newLength, front, _⟩
      dsimp only at same
      have offset : after.offset = p.offset := by rw [same]
      have size : after.length = newsize := by rw [same]
      have held : after.buffer = some newbuffer := by rw [same]
      dsimp only
      refine ⟨⟨block, newbuffer, found, held, offset, newLength.trans size.symm, front⟩, by omega, ?_⟩
      exact ⟨⟨newbuffer, held, newLength.trans size.symm⟩, Or.inl (by omega), by omega⟩

theorem ensuresSafely (spare : p.Spare) (needed : Nat) : EnsuresSafely p needed where
  ends := by
    rcases spare.ensure needed with ⟨result, ends, _⟩
    exact ⟨result, ends⟩
  succeeds := by
    intro after ran
    rcases (spare.ensure needed).elim ran rfl with ⟨front, room, left⟩
    exact ⟨front, room, left.bounded⟩
  copies := by
    rintro ⟨_, _, _, owned, fixed, _⟩
    rcases spare.block with ⟨block, found, length⟩
    refine ⟨block, found, length, ?_⟩
    rcases spare.room with inside | ⟨_, _, noalloc | reallocates⟩
    · exact inside
    · rw [owned] at noalloc
      cases noalloc
    · rw [fixed] at reallocates
      cases reallocates

theorem write (spare : p.Spare) {index : Nat} {bytes : Bytes} (ran : p.write index bytes = .ok q) :
    q.Spare ∧ q.offset = p.offset ∧ q.length = p.length := by
  rcases spare.block with ⟨block, found, length⟩
  rcases write_eq_ok ran with ⟨other, after, foundOther, stored, rfl⟩
  cases found.symm.trans foundOther
  exact ⟨⟨⟨after, rfl, (Block.write_eq_some stored).2.trans length⟩, spare.room, spare.bounded⟩, rfl, rfl⟩

/-- The terminator that is found is inside the block. -/
theorem updateOffset (spare : p.Spare) (ran : p.updateOffset = .ok q) : q.Spare := by
  rcases spare.block with ⟨block, found, length⟩
  unfold PrintBuffer.updateOffset at ran
  rw [found] at ran
  dsimp only at ran
  by_cases terminated : 0 ∈ block.bytes.drop p.offset
  · rw [if_pos terminated] at ran
    cases ran
    rcases exists_terminator terminated with ⟨rest, split⟩
    have size := congrArg List.length split
    simp only [List.length_drop, List.length_append, List.length_cons] at size
    refine ⟨⟨block, found, length⟩, Or.inl ?_, spare.bounded⟩
    show p.offset + (text (block.bytes.drop p.offset)).length < p.length
    omega
  · rw [if_neg terminated] at ran
    cases ran

theorem store (spare : p.Spare) {bytes : Bytes} {count : Nat} (reserved : count ≤ needed)
    (ran : CJson.store p needed bytes count = .ok (true, q)) : q.Spare := by
  rcases Except.bind_eq_ok.mp ran with ⟨⟨granted, middle⟩, ensured, ran⟩
  cases granted with
  | false => cases ran
  | true =>
      rcases (spare.ensure needed).elim ensured rfl with ⟨⟨_, _, _, _, offset, _⟩, room, left⟩
      rcases Except.bind_eq_ok.mp ran with ⟨after, wrote, ran⟩
      cases ran
      rcases left.write wrote with ⟨kept, sameOffset, sameLength⟩
      refine ⟨kept.block, Or.inl ?_, kept.bounded⟩
      show after.offset + count < after.length
      dsimp only at offset room sameOffset sameLength
      omega

end PrintBuffer.Spare

/-- In every run from a buffer with a byte to spare, there is one at every call
of `ensure`, and at the end. -/
theorem PrintProgram.spares (program : PrintProgram) {p : PrintBuffer} (spare : p.Spare) :
    (∀ call ∈ program.calls p, call.1.Spare) ∧
      ∀ after, program.run p = .ok (true, after) -> after.Spare := by
  induction program generalizing p with
  | stop printed =>
      refine ⟨fun call inside => absurd inside List.not_mem_nil, ?_⟩
      intro after ran
      cases ran
      exact spare
  | ensure needed =>
      constructor
      · intro call inside
        cases List.mem_singleton.mp inside
        exact spare
      · intro after ran
        exact ((spare.ensure needed).elim ran rfl).2.2
  | write index bytes =>
      refine ⟨fun call inside => absurd inside List.not_mem_nil, ?_⟩
      intro after ran
      rcases Except.bind_eq_ok.mp ran with ⟨last, wrote, same⟩
      cases same
      exact (spare.write wrote).1
  | updateOffset =>
      refine ⟨fun call inside => absurd inside List.not_mem_nil, ?_⟩
      intro after ran
      rcases Except.bind_eq_ok.mp ran with ⟨last, updated, same⟩
      cases same
      exact spare.updateOffset updated
  | store needed bytes count reserved =>
      constructor
      · intro call inside
        cases List.mem_singleton.mp inside
        exact spare
      · intro after ran
        exact spare.store reserved ran
  | nest change =>
      refine ⟨fun call inside => absurd inside List.not_mem_nil, ?_⟩
      intro after ran
      cases ran
      exact ⟨spare.block, spare.room, spare.bounded⟩
  | andThen first second firstSpares secondSpares =>
      rcases firstSpares spare with ⟨front, ends⟩
      constructor
      · intro call inside
        rcases List.mem_append.mp inside with inside | inside
        · exact front call inside
        · split at inside
          · rename_i middle ran
            exact (secondSpares (ends middle ran)).1 call inside
          · cases inside
      · intro after ran
        rcases Except.bind_eq_ok.mp ran with ⟨⟨printed, middle⟩, ran, continued⟩
        cases printed with
        | false => cases continued
        | true => exact (secondSpares (ends middle ran)).2 after continued
  | reads program each => exact each p.format p.depth spare

/-! ## The first call -/

/-- What `print_value` asks for first, `none` if it does not get that far.  The size
covers the whole of a scalar with its terminator, and of a container the opening
bracket alone. -/
def firstNeeded (library : CLibrary) (format : Bool) (item : Item) : Option Nat :=
  match item.fields.type_.base with
  | .null => some 5
  | .false => some 6
  | .true => some 5
  | .number =>
      match numberBuffer library item.fields with
      | none => none
      | some printed => if 25 < printed.length then none else some (printed.length + 1)
  | .raw => item.fields.valuestring.map fun block => (text block).length + 1
  | .string => some ((stringText item.fields.valuestring).length + 1)
  | .array => some 1
  | .object => some (if format then 3 else 2)
  | .invalid => none

/-- A step that asks for `needed` bytes, and does nothing but fail without them. -/
def AsksFirst (needed : Nat) (program : PrintProgram) (p : PrintBuffer) : Prop :=
  ∃ others, program.calls p = (p, needed) :: others ∧
    ((∀ after, p.ensure needed ≠ .ok (true, after)) ->
      others = [] ∧ ∀ after, program.run p ≠ .ok (true, after))

section First

variable {p : PrintBuffer} {needed : Nat}

theorem asksFirst_ensure : AsksFirst needed (.ensure needed) p :=
  ⟨[], rfl, fun refused => ⟨rfl, refused⟩⟩

theorem asksFirst_store {bytes : Bytes} {count : Nat} {reserved : count ≤ needed} :
    AsksFirst needed (.store needed bytes count reserved) p := by
  refine ⟨[], rfl, fun refused => ⟨rfl, ?_⟩⟩
  intro after ran
  rcases Except.bind_eq_ok.mp ran with ⟨⟨granted, middle⟩, ensured, continued⟩
  cases granted with
  | false => cases continued
  | true => exact refused middle ensured

theorem AsksFirst.andThen {first : PrintProgram} (asks : AsksFirst needed first p) (second : PrintProgram) :
    AsksFirst needed (.andThen first second) p := by
  rcases asks with ⟨others, calls, fails⟩
  refine ⟨others ++ (match first.run p with
      | .ok (true, after) => second.calls after
      | _ => []), congrArg (· ++ _) calls, fun refused => ?_⟩
  rcases fails refused with ⟨none, stops⟩
  constructor
  · rw [none, List.nil_append]
    split
    · rename_i after ran
      exact absurd ran (stops after)
    · rfl
  · intro after ran
    rcases Except.bind_eq_ok.mp ran with ⟨⟨printed, middle⟩, ran, continued⟩
    cases printed with
    | false => cases continued
    | true => exact stops middle ran

theorem AsksFirst.reads {program : Bool -> Nat -> PrintProgram}
    (asks : AsksFirst needed (program p.format p.depth) p) : AsksFirst needed (.reads program) p := asks

theorem asksFirst_string (input : Option Bytes) : AsksFirst ((stringText input).length + 1)
    (printStringPtr input) p := by
  cases input with
  | none => exact asksFirst_store
  | some block =>
      have size : (stringText (some block)).length + 1 =
          (text block).length + ((text block).map escapeCharacters).sum + 3 := by
        rw [stringText, List.length_cons, List.length_append, flatMap_escapeByte_length]
        rfl
      rw [size]
      exact asksFirst_ensure.andThen _

/-- The first call of `ensure` is made where the printing starts, and asks for the
size that the kind of the node tells. -/
theorem printValue_first (library : CLibrary) (item : Item) (shallow : p.depth < nestingLimit) :
    match firstNeeded library p.format item with
    | none => (printValue library item).calls p = []
    | some needed => AsksFirst needed (printValue library item) p := by
  cases item with
  | mk fields child headPrev =>
      unfold firstNeeded printValue
      dsimp only [Item.fields]
      cases fields.type_.base with
      | null => exact asksFirst_store
      | false => exact asksFirst_store
      | true => exact asksFirst_store
      | number =>
          dsimp only
          unfold printNumber
          cases numberBuffer library fields with
          | none => rfl
          | some printed =>
              dsimp only
              by_cases long : 25 < printed.length
              · rw [if_pos long, if_pos long]
                rfl
              · rw [if_neg long, if_neg long]
                exact asksFirst_store
      | raw =>
          cases fields.valuestring with
          | none => rfl
          | some block => exact asksFirst_store
      | string => exact asksFirst_string fields.valuestring
      | array =>
          apply AsksFirst.reads
          rw [if_neg (Nat.not_le.mpr shallow)]
          exact asksFirst_store.andThen _
      | object =>
          apply AsksFirst.reads
          rw [if_neg (Nat.not_le.mpr shallow)]
          cases p.format with
          | false => exact asksFirst_store.andThen _
          | true => exact asksFirst_store.andThen _
      | invalid => rfl

end First

/-! ## The entry points -/

/-- The entry points that print into a buffer of their own.  They differ in the size
of the first block and in what they do when `print_value` has returned. -/
inductive PrintEntry where
  | print
  | printUnformatted
  | printBuffered (prebuffer : Int) (format : Bool)

namespace PrintEntry

def run (library : CLibrary) (item : Item) (allocator : Allocator) :
    PrintEntry -> Except Fault (Option Block × Allocator)
  | print => cjsonPrint library item allocator
  | printUnformatted => cjsonPrintUnformatted library item allocator
  | printBuffered prebuffer format => cjsonPrintBuffered library item prebuffer format allocator

def format : PrintEntry -> Bool
  | print => true
  | printUnformatted => false
  | printBuffered _ format => format

/-- The size of the first block. -/
def firstSize : PrintEntry -> Option Nat
  | print => some defaultBufferSize
  | printUnformatted => some defaultBufferSize
  | printBuffered prebuffer _ => if prebuffer < 0 then none else some prebuffer.toNat

/-- The buffer in which `print_value` starts, `none` if it is not called. -/
def start (entry : PrintEntry) (allocator : Allocator) : Option PrintBuffer := do
  let size ← entry.firstSize
  let block ← (allocator.allocate size).1
  some (startIn block size false entry.format (allocator.allocate size).2)

/-- What is done after `print_value`.  The buffered entry point returns its buffer as
it is; the other ones update the offset and cut the block to size.  If printing failed
the buffer is given back, which the buffered entry point does not do with NULL. -/
def finish : PrintEntry -> Bool × PrintBuffer -> Except Fault (Option Block × Allocator)
  | printBuffered _ _, (printed, p) =>
      if printed then .ok (p.buffer, p.allocator)
      else match p.buffer with
        | none => .ok (none, p.allocator)
        | some block => .ok (none, p.allocator.deallocate (some block))
  | _, (printed, p) =>
      if printed then do
        let p ← p.updateOffset
        shrink p
      else .ok (none, p.allocator.deallocate p.buffer)

/-- The calls of `ensure` in a run of the entry point. -/
def ensureCalls (library : CLibrary) (item : Item) (allocator : Allocator) (entry : PrintEntry) :
    List (PrintBuffer × Nat) :=
  match entry.start allocator with
  | none => []
  | some p => (printValue library item).calls p

/-- `prebuffer` is an `int`, and so is the size of the first block. -/
def FitsInt (entry : PrintEntry) : Prop := ∀ size, entry.firstSize = some size -> size ≤ intMax

/-- An empty first block is copied to a larger one: without `reallocate`, and if there
is memory for both.  The copy is of `offset + 1` bytes, which is one too many for a
block that has none. -/
def CopiesNothing (library : CLibrary) (item : Item) (allocator : Allocator) (entry : PrintEntry) : Prop :=
  entry.firstSize = some 0 ∧ allocator.hooks.hasReallocate = false ∧
    ∃ needed newsize, firstNeeded library entry.format item = some needed ∧
      newSize (needed + 1) = some newsize ∧ allocator.hooks.Grants [0, newsize]

section Runs

variable {library : CLibrary} {item : Item} {allocator : Allocator} {entry : PrintEntry}

theorem start_eq_some {p : PrintBuffer} (started : entry.start allocator = some p) :
    ∃ size block, entry.firstSize = some size ∧ allocator.allocate size = (some block, p.allocator) ∧
      p = startIn block size false entry.format p.allocator := by
  rcases Option.bind_eq_some_iff.mp started with ⟨size, sized, started⟩
  rcases Option.bind_eq_some_iff.mp started with ⟨block, obtained, same⟩
  cases same
  exact ⟨size, block, sized, Prod.ext obtained rfl, rfl⟩

/-- An entry point is `print_value` from its start on. -/
theorem run_eq {p : PrintBuffer} (started : entry.start allocator = some p) :
    entry.run library item allocator = (printValue library item).run p >>= entry.finish := by
  rcases start_eq_some started with ⟨size, block, sized, obtained, same⟩
  rw [same]
  cases entry with
  | print =>
      cases sized
      rw [run, cjsonPrint, printImpl, obtained]
      rfl
  | printUnformatted =>
      cases sized
      rw [run, cjsonPrintUnformatted, printImpl, obtained]
      rfl
  | printBuffered prebuffer format =>
      rw [firstSize] at sized
      split at sized
      · cases sized
      · rename_i positive
        cases sized
        rw [run, cjsonPrintBuffered, if_neg positive, obtained]
        rfl

/-- An empty buffer that is not copied is left as it is, or released. -/
theorem ensure_empty {p : PrintBuffer} {block : Block} {needed : Nat} (found : p.buffer = some block)
    (empty : p.length = 0) (owned : p.noalloc = false) (fixed : p.allocator.hooks.hasReallocate = false)
    (refused : ¬ p.Copies needed) : ∃ after, p.ensure needed = .ok (false, after) := by
  unfold PrintBuffer.ensure
  rw [found]
  dsimp only
  rw [if_neg (by omega)]
  by_cases huge : intMax < needed
  · exact ⟨p, if_pos huge⟩
  rw [if_neg huge, if_neg (by omega), if_neg (by rw [owned]; decide)]
  cases sized : newSize (needed + p.offset + 1) with
  | none => exact ⟨p, rfl⟩
  | some newsize =>
      have asked : (p.allocator.hooks.request newsize).1 = false := by
        apply Bool.eq_false_iff.mpr
        intro granted
        exact refused ⟨by omega, Nat.not_lt.mp huge, by omega, owned, fixed, newsize, sized, granted⟩
      dsimp only
      rw [PrintBuffer.grow, if_neg (by rw [fixed]; decide), Allocator.allocate, asked]
      exact ⟨_, rfl⟩

variable {p : PrintBuffer}

/-- Where the first block is not empty, or can be reallocated, there is a byte to
spare from the start on. -/
theorem start_spare (int : entry.FitsInt) (started : entry.start allocator = some p)
    (room : entry.firstSize ≠ some 0 ∨ allocator.hooks.hasReallocate = true) : p.Spare := by
  rcases start_eq_some started with ⟨size, block, sized, obtained, same⟩
  have length := Allocator.allocate_eq_some obtained
  have bounded := int size sized
  have hooksEq : p.allocator.hooks = (allocator.hooks.request size).2 :=
    (congrArg (Allocator.hooks ∘ Prod.snd) obtained).symm
  have lengthEq : p.length = size := by rw [same]; rfl
  have offsetEq : p.offset = 0 := by rw [same]; rfl
  refine ⟨⟨block, by rw [same]; rfl, length.trans lengthEq.symm⟩, ?_, by omega⟩
  by_cases empty : size = 0
  · rcases room with other | reallocates
    · exact absurd (sized.trans (by rw [empty])) other
    · refine Or.inr ⟨offsetEq, lengthEq.trans empty, Or.inr ?_⟩
      rw [hooksEq, Hooks.request_hasReallocate]
      exact reallocates
  · exact Or.inl (by omega)

/-- With an empty block that cannot be reallocated, all depends on the first call. -/
theorem copies_iff (started : entry.start allocator = some p) (empty : entry.firstSize = some 0)
    (fixed : allocator.hooks.hasReallocate = false) {needed : Nat}
    (asks : firstNeeded library entry.format item = some needed) :
    p.Copies needed ↔ entry.CopiesNothing library item allocator := by
  rcases start_eq_some started with ⟨size, block, sized, obtained, same⟩
  cases sized.symm.trans empty
  have hooksEq : p.allocator.hooks = (allocator.hooks.request 0).2 :=
    (congrArg (Allocator.hooks ∘ Prod.snd) obtained).symm
  have lengthEq : p.length = 0 := by rw [same]; rfl
  have offsetEq : p.offset = 0 := by rw [same]; rfl
  have first : (allocator.hooks.request 0).1 = true := by
    apply Bool.eq_true_of_not_eq_false
    intro refused
    rw [Allocator.allocate, refused] at obtained
    cases obtained
  constructor
  · rintro ⟨_, _, _, _, _, newsize, grows, granted⟩
    rw [offsetEq] at grows
    rw [hooksEq] at granted
    exact ⟨empty, fixed, needed, newsize, asks, grows, first, granted, trivial⟩
  · rintro ⟨_, _, other, newsize, otherAsks, grows, _, granted, _⟩
    cases asks.symm.trans otherAsks
    have small := (newSize_eq_some grows).trans (newSize_le grows)
    refine ⟨by omega, by omega, by omega, by rw [same]; rfl, ?_, newsize, by rw [offsetEq]; exact grows, ?_⟩
    · rw [hooksEq, Hooks.request_hasReallocate]
      exact fixed
    · rw [hooksEq]
      exact granted

/-- In a run of `cJSON_Print`, `cJSON_PrintUnformatted` or `cJSON_PrintBuffered`
every call of `ensure` is safe, but for a copy of a byte out of an empty block. -/
theorem ensureCalls_safe_iff (library : CLibrary) (item : Item) (allocator : Allocator) (entry : PrintEntry)
    (int : entry.FitsInt) :
    (∀ call ∈ entry.ensureCalls library item allocator, EnsuresSafely call.1 call.2) ↔
      ¬ entry.CopiesNothing library item allocator := by
  unfold ensureCalls
  cases started : entry.start allocator with
  | none =>
      refine iff_of_true (fun call inside => absurd inside List.not_mem_nil) ?_
      rintro ⟨empty, _, _, _, _, _, granted, _⟩
      have begins : entry.start allocator ≠ none := by
        rw [start, empty]
        show (((allocator.allocate 0).1).bind _) ≠ none
        rw [Allocator.allocate, granted]
        exact fun impossible => by cases impossible
      exact begins started
  | some p =>
      dsimp only
      by_cases room : entry.firstSize ≠ some 0 ∨ allocator.hooks.hasReallocate = true
      · have spare := start_spare int started room
        refine iff_of_true ?_ ?_
        · intro call inside
          exact (((printValue library item).spares spare).1 call inside).ensuresSafely call.2
        · rintro ⟨empty, fixed, _⟩
          rcases room with other | reallocates
          · exact other empty
          · rw [fixed] at reallocates
            cases reallocates
      · rcases not_or.mp room with ⟨empty, fixed⟩
        have empty := not_not.mp empty
        have fixed := Bool.eq_false_iff.mpr fixed
        rcases start_eq_some started with ⟨size, block, sized, obtained, same⟩
        cases sized.symm.trans empty
        have formatEq : p.format = entry.format := by rw [same]; rfl
        have lengthEq : p.length = 0 := by rw [same]; rfl
        have first := printValue_first library item (show p.depth < nestingLimit by
          rw [same]
          show 0 < nestingLimit
          decide)
        rw [formatEq] at first
        cases asks : firstNeeded library entry.format item with
        | none =>
            rw [asks] at first
            dsimp only at first
            rw [first]
            refine iff_of_true (fun call inside => absurd inside List.not_mem_nil) ?_
            rintro ⟨_, _, needed, _, impossible, _⟩
            rw [asks] at impossible
            cases impossible
        | some needed =>
            rw [asks] at first
            rcases first with ⟨others, calls, fails⟩
            rw [calls, ← copies_iff started empty fixed asks]
            constructor
            · intro safe copies
              rcases (safe _ List.mem_cons_self).copies copies with ⟨_, _, _, inside⟩
              dsimp only at inside
              omega
            · intro refused
              have hooksEq : p.allocator.hooks = (allocator.hooks.request 0).2 :=
                (congrArg (Allocator.hooks ∘ Prod.snd) obtained).symm
              rcases ensure_empty (by rw [same]; rfl) lengthEq (by rw [same]; rfl)
                (by rw [hooksEq, Hooks.request_hasReallocate]; exact fixed) refused with ⟨after, ends⟩
              have stops : ∀ other, p.ensure needed ≠ .ok (true, other) := by
                intro other ran
                rw [ends] at ran
                cases ran
              rw [(fails stops).1]
              intro call inside
              cases List.mem_singleton.mp inside
              exact ⟨⟨_, ends⟩, fun other ran => absurd ran (stops other), fun copies => absurd copies refused⟩

end Runs

/-- A tree of names, strings and containers, printed into a buffer of no bytes that
can be exchanged: each of the eleven calls is safe. -/
theorem ensureCalls_safe_iff_quoted :
    let calls := (printBuffered 0 true).ensureCalls decimalLibrary quotedTree
      ⟨⟨fun _ _ => true, true⟩, fun _ _ => 0, []⟩
    calls.map Prod.snd = [3, 1, 4, 2, 1, 9, 3, 5, 2, 2, 2] ∧
      ∀ call ∈ calls, EnsuresSafely call.1 call.2 := by
  intro calls
  have int : (printBuffered 0 true).FitsInt := by
    rintro size sized
    cases sized
    exact Nat.zero_le _
  refine ⟨rfl, (ensureCalls_safe_iff decimalLibrary _ _ _ int).mpr ?_⟩
  rintro ⟨_, impossible, _⟩
  cases impossible

/-- `null`, printed into a buffer of no bytes that has to be copied. -/
theorem empty_buffer_is_copied :
    ¬ ∀ call ∈ (printBuffered 0 false).ensureCalls decimalLibrary (.mk { type_ := { base := .null } } [] .null)
      ⟨⟨fun _ _ => true, false⟩, fun _ _ => 0, []⟩, EnsuresSafely call.1 call.2 := by
  intro safe
  rcases (safe (startIn ⟨0, []⟩ 0 false false ⟨⟨fun _ _ => true, false⟩, fun _ _ => 0, [.allocate 0 true]⟩, 5)
    List.mem_cons_self).ends with ⟨result, ends⟩
  cases ends

end PrintEntry

end CJson
