import CJson.PrintBuffers
import CJson.Trace

/-!
# The hook calls of the printer

The printer owns one block at a time, its buffer, and none once a request for a
larger one has been refused: `ensure` releases the old block itself.
`cjson_print_buffered` takes that into account when it cleans up; `print_impl`
hands the deallocate hook a NULL pointer.
-/

namespace CJson

open CString PrintBuffer

/-- The calls of a run that begins with `allocator`: every pointer given to a hook is
live, and in the end the returned block is, and no other.  A release of NULL through
the hook is not clean. -/
def TracesCleanly (allocator : Allocator) (result : Option Block × Allocator) : Prop :=
  ∃ calls, result.2.calls = allocator.calls ++ calls ∧
    replay allocator.calls.length [] calls = some (result.1.map Block.number).toList

/-! ## The block that the printer owns -/

/-- The blocks live after the calls made since `start`.  Their numbers are those of
earlier calls, so that a new block is none of them. -/
def LiveSince (start : List HookCall) (allocator : Allocator) (live : List Nat) : Prop :=
  ∃ calls, allocator.calls = start ++ calls ∧ replay start.length [] calls = some live ∧
    ∀ block ∈ live, block < allocator.calls.length

namespace LiveSince

variable {start : List HookCall} {allocator : Allocator} {live : List Nat} {size : Nat}

theorem append {call : HookCall} {after : Allocator} {now : List Nat}
    (since : LiveSince start allocator live) (called : after.calls = allocator.calls ++ [call])
    (effect : replay allocator.calls.length live [call] = some now)
    (known : ∀ block ∈ now, block ∈ live ∨ block = allocator.calls.length) :
    LiveSince start after now := by
  rcases since with ⟨calls, split, replayed, bounded⟩
  refine ⟨calls ++ [call], ?_, ?_, ?_⟩
  · rw [called, split, List.append_assoc]
  · rw [replay_append, replayed, Option.bind_some, ← List.length_append, ← split]
    exact effect
  · intro block isLive
    rw [called, List.length_append, List.length_singleton]
    rcases known block isLive with before | new
    · have small := bounded block before
      omega
    · omega

/-- A request for a fresh block. -/
theorem allocate (since : LiveSince start allocator live) :
    LiveSince start (allocator.allocate size).2
      (((allocator.allocate size).1.map Block.number).toList ++ live) := by
  unfold Allocator.allocate
  dsimp only
  cases (allocator.hooks.request size).1 with
  | true =>
      apply @append _ _ _ (.allocate size true) _ _ since rfl rfl
      intro block isLive
      rcases List.mem_cons.mp isLive with new | before
      · exact Or.inr new
      · exact Or.inl before
  | false => exact @append _ _ _ (.allocate size false) _ _ since rfl rfl (fun _ => Or.inl)

/-- A request to move the only block. -/
theorem reallocate {block : Block} (since : LiveSince start allocator [block.number]) :
    LiveSince start (allocator.reallocate block size).2
      [((allocator.reallocate block size).1.getD block).number] := by
  unfold Allocator.reallocate
  dsimp only
  cases (allocator.hooks.request size).1 with
  | true =>
      apply @append _ _ _ (.reallocate block.number size true) _ _ since rfl
      · simp [replay]
      · intro other isLive
        exact Or.inr (List.mem_singleton.mp isLive)
  | false =>
      apply @append _ _ _ (.reallocate block.number size false) _ _ since rfl
      · simp [replay]
      · exact fun _ => Or.inl

/-- The release of a block. -/
theorem deallocate {block : Block} (since : LiveSince start allocator live)
    (isLive : block.number ∈ live) :
    LiveSince start (allocator.deallocate (some block)) (live.erase block.number) := by
  apply @append _ _ _ (.deallocate (some block.number)) _ _ since rfl
  · rw [replay, if_pos isLive, replay]
  · exact fun other inside => Or.inl (List.mem_of_mem_erase inside)

/-- A copy to a fresh block and the release of the old one. -/
theorem move {block fresh : Block} {after : Allocator} (since : LiveSince start allocator [block.number])
    (obtained : allocator.allocate size = (some fresh, after)) :
    LiveSince start (after.deallocate (some block)) [fresh.number] := by
  have both := @allocate _ _ _ size since
  rw [obtained] at both
  have numbered : fresh.number = allocator.calls.length := by
    unfold Allocator.allocate at obtained
    dsimp only at obtained
    injection obtained with given _
    split at given
    · cases given
      rfl
    · cases given
  have older : block.number < allocator.calls.length := by
    rcases since with ⟨_, _, _, bounded⟩
    exact bounded block.number List.mem_cons_self
  have released := both.deallocate (List.mem_cons_of_mem _ List.mem_cons_self)
  have other : (fresh.number == block.number) = false := beq_eq_false_iff_ne.mpr (by omega)
  simpa [List.erase_cons, other] using released

end LiveSince

/-- The printer owns its buffer and nothing else.  This holds between any two
operations, and after a refused request the buffer is no more. -/
def Owns (start : List HookCall) (p : PrintBuffer) : Prop :=
  p.noalloc = false ∧ LiveSince start p.allocator (p.buffer.map Block.number).toList

theorem Owns.grow {start : List HookCall} {p q : PrintBuffer} {block : Block} {newsize : Nat}
    {granted : Bool} (owns : Owns start p) (found : p.buffer = some block)
    (ran : p.grow block newsize = .ok (granted, q)) : Owns start q := by
  rcases owns with ⟨owned, since⟩
  rw [found] at since
  unfold PrintBuffer.grow at ran
  split at ran
  · have moved := @LiveSince.reallocate _ _ newsize _ since
    split at ran
    · rename_i allocator refused
      cases ran
      rw [refused] at moved
      have released := @LiveSince.deallocate _ _ _ block moved List.mem_cons_self
      refine ⟨owned, ?_⟩
      show LiveSince start (allocator.deallocate p.buffer) []
      rw [found]
      simpa using released
    · rename_i newbuffer allocator obtained
      cases ran
      rw [obtained] at moved
      exact ⟨owned, moved⟩
  · split at ran
    · rename_i allocator refused
      cases ran
      have kept := @LiveSince.allocate _ _ _ newsize since
      rw [refused] at kept
      have released := @LiveSince.deallocate _ _ _ block kept List.mem_cons_self
      refine ⟨owned, ?_⟩
      show LiveSince start (allocator.deallocate p.buffer) []
      rw [found]
      simpa using released
    · rename_i newbuffer allocator obtained
      split at ran
      · cases ran
      · split at ran
        · cases ran
        · rename_i stored
          cases ran
          have copied := since.move obtained
          rw [← (Block.write_eq_some stored).1] at copied
          exact ⟨owned, copied⟩

/-- No operation loses or leaks the buffer. -/
theorem kept_owns (start : List HookCall) : Kept (Owns start) where
  ensure := by
    intro p q needed granted owns ran
    rcases ensure_cases ran with same | ⟨block, newsize, found, _, _, grown⟩
    · rw [same]
      exact owns
    · exact owns.grow found grown
  write := by
    intro p q index bytes owns ran
    rcases write_eq_ok ran with ⟨block, after, found, stored, rfl⟩
    refine ⟨owns.1, ?_⟩
    have since := owns.2
    rw [found] at since
    show LiveSince start p.allocator [after.number]
    rw [(Block.write_eq_some stored).1]
    exact since
  move := fun _ _ owns => owns

/-! ## A run beside the one whose requests are all granted -/

/-- The size that a call asks for. -/
def HookCall.requested : HookCall -> Option Nat
  | .allocate size _ => some size
  | .reallocate _ size _ => some size
  | .deallocate _ => none

/-- The hooks grant requests of these sizes, one after the other. -/
def Hooks.Grants : Hooks -> List Nat -> Prop
  | _, [] => True
  | hooks, size :: sizes => (hooks.request size).1 = true ∧ (hooks.request size).2.Grants sizes

/-- The hooks after requests of these sizes. -/
def Hooks.after : Hooks -> List Nat -> Hooks
  | hooks, [] => hooks
  | hooks, size :: sizes => (hooks.request size).2.after sizes

theorem Hooks.grants_append {hooks : Hooks} {first second : List Nat} :
    hooks.Grants (first ++ second) ↔ hooks.Grants first ∧ (hooks.after first).Grants second := by
  induction first generalizing hooks with
  | nil => exact (iff_of_eq (true_and _)).symm
  | cons size first ih =>
      rw [List.cons_append, Grants, Grants, Hooks.after, ih, and_assoc]

theorem Hooks.after_append (hooks : Hooks) (first second : List Nat) :
    hooks.after (first ++ second) = (hooks.after first).after second := by
  induction first generalizing hooks with
  | nil => rfl
  | cons size first ih => exact ih _

/-- The same hooks, but no request is ever refused. -/
def Hooks.granting (hooks : Hooks) : Hooks where
  answers _ _ := true
  hasReallocate := hooks.hasReallocate

/-- The same allocator under hooks that refuse nothing. -/
def Allocator.granting (allocator : Allocator) : Allocator :=
  { allocator with hooks := allocator.hooks.granting }

/-- The same buffer under hooks that refuse nothing. -/
def PrintBuffer.granting (p : PrintBuffer) : PrintBuffer :=
  { p with allocator := p.allocator.granting }

/-- A granted run and what became of it under the actual hooks: they agree as long
as these grant what is asked for, and after the first refusal nothing is printed
and there is no buffer. -/
def Follows (p : PrintBuffer) (granted outcome : Bool × PrintBuffer) : Prop :=
  ∃ calls, granted.2.allocator.calls = p.allocator.calls ++ calls ∧
    ((p.allocator.hooks.Grants (calls.filterMap HookCall.requested) ∧
        outcome.1 = granted.1 ∧ outcome.2.granting = granted.2 ∧
        outcome.2.allocator.hooks = p.allocator.hooks.after (calls.filterMap HookCall.requested) ∧
        outcome.2.noalloc = false ∧ outcome.2.buffer.isSome) ∨
      (¬ p.allocator.hooks.Grants (calls.filterMap HookCall.requested) ∧
        outcome.1 = false ∧ outcome.2.buffer = none))

/-- A step without a request. -/
theorem Follows.quiet {p q g : PrintBuffer} {printed : Bool} (same : q.granting = g)
    (allocator : q.allocator = p.allocator) (owned : q.noalloc = false)
    (holds : q.buffer.isSome) : Follows p (printed, g) (printed, q) := by
  refine ⟨[], ?_, Or.inl ⟨trivial, rfl, same, ?_, owned, holds⟩⟩
  · rw [List.append_nil, ← same]
    show q.allocator.calls = p.allocator.calls
    rw [allocator]
  · rw [allocator]
    rfl

/-- A larger block takes one request. -/
theorem PrintBuffer.grow_asks {p q : PrintBuffer} {block : Block} {newsize : Nat} {granted : Bool}
    (ran : p.grow block newsize = .ok (granted, q)) :
    ∃ calls, q.allocator.calls = p.allocator.calls ++ calls ∧
      calls.filterMap HookCall.requested = [newsize] := by
  unfold PrintBuffer.grow at ran
  split at ran
  · have called : (p.allocator.reallocate block newsize).2.calls =
        p.allocator.calls ++ [.reallocate block.number newsize _] := rfl
    split at ran
    · rename_i refused
      cases ran
      rw [refused] at called
      exact ⟨[.reallocate block.number newsize _, .deallocate _],
        (congrArg (· ++ _) called).trans (List.append_assoc _ _ _), rfl⟩
    · rename_i obtained
      cases ran
      rw [obtained] at called
      exact ⟨_, called, rfl⟩
  · have called : (p.allocator.allocate newsize).2.calls =
        p.allocator.calls ++ [.allocate newsize _] := rfl
    split at ran
    · rename_i refused
      cases ran
      rw [refused] at called
      exact ⟨[.allocate newsize _, .deallocate _],
        (congrArg (· ++ _) called).trans (List.append_assoc _ _ _), rfl⟩
    · rename_i obtained
      rw [obtained] at called
      split at ran
      · cases ran
      · split at ran
        · cases ran
        · cases ran
          exact ⟨[.allocate newsize _, .deallocate _],
            (congrArg (· ++ _) called).trans (List.append_assoc _ _ _), rfl⟩

theorem Follows.grow {p g q : PrintBuffer} {block : Block} {newsize : Nat} {yes granted : Bool}
    (owned : p.noalloc = false) (ideal : p.granting.grow block newsize = .ok (yes, g))
    (ran : p.grow block newsize = .ok (granted, q)) : Follows p (yes, g) (granted, q) := by
  obtain ⟨calls, more, sizes⟩ := PrintBuffer.grow_asks ideal
  have refused : p.allocator.hooks.answers 0 newsize = false ->
      ¬ p.allocator.hooks.Grants (calls.filterMap HookCall.requested) := by
    intro answer
    rw [sizes]
    rintro ⟨grants, _⟩
    exact nomatch answer.symm.trans grants
  unfold PrintBuffer.grow at ideal ran
  have movable : p.granting.allocator.hooks.hasReallocate = p.allocator.hooks.hasReallocate := rfl
  rw [movable] at ideal
  by_cases reallocates : p.allocator.hooks.hasReallocate = true
  · rw [if_pos reallocates] at ideal ran
    cases answer : p.allocator.hooks.answers 0 newsize with
    | true =>
        simp only [Allocator.reallocate, Hooks.request, answer, if_true] at ran
        cases ran
        cases ideal
        refine ⟨[.reallocate block.number newsize true], rfl, Or.inl ?_⟩
        exact ⟨⟨answer, trivial⟩, rfl, rfl, rfl, owned, rfl⟩
    | false =>
        simp only [Allocator.reallocate, Hooks.request, answer] at ran
        cases ran
        exact ⟨calls, more, Or.inr ⟨refused answer, rfl, rfl⟩⟩
  · rw [if_neg reallocates] at ideal ran
    cases answer : p.allocator.hooks.answers 0 newsize with
    | true =>
        simp only [Allocator.allocate, Hooks.request, answer, if_true] at ran
        simp only [Allocator.allocate, Hooks.request, granting, Allocator.granting, Hooks.granting,
          if_true] at ideal
        split at ran
        · cases ran
        · rename_i room
          simp only [room, if_false] at ideal
          split at ran
          · cases ran
          · rename_i stored
            simp only [stored] at ideal
            cases ran
            cases ideal
            refine ⟨[.allocate newsize true, .deallocate (some block.number)], ?_, Or.inl ?_⟩
            · exact List.append_assoc _ _ _
            · exact ⟨⟨answer, trivial⟩, rfl, rfl, rfl, owned, rfl⟩
    | false =>
        simp only [Allocator.allocate, Hooks.request, answer] at ran
        cases ran
        exact ⟨calls, more, Or.inr ⟨refused answer, rfl, rfl⟩⟩

theorem Follows.ensure {p g q : PrintBuffer} {needed : Nat} {yes granted : Bool}
    (owned : p.noalloc = false) (holds : p.buffer.isSome)
    (ideal : p.granting.ensure needed = .ok (yes, g)) (ran : p.ensure needed = .ok (granted, q)) :
    Follows p (yes, g) (granted, q) := by
  unfold PrintBuffer.ensure at ideal ran
  obtain ⟨block, found⟩ := Option.isSome_iff_exists.mp holds
  have same : p.granting.buffer = some block := found
  have stays : ∀ {answer : Bool}, (Except.ok (answer, p.granting) : Printing) = .ok (yes, g) ->
      (Except.ok (answer, p) : Printing) = .ok (granted, q) -> Follows p (yes, g) (granted, q) := by
    intro answer ideal ran
    cases ideal
    cases ran
    exact quiet rfl rfl owned holds
  rw [found] at ran
  rw [same] at ideal
  dsimp only at ran
  have full : p.granting.length = p.length := rfl
  have place : p.granting.offset = p.offset := rfl
  have fixed : p.granting.noalloc = p.noalloc := rfl
  simp only [full, place, fixed] at ideal
  split at ran
  · rename_i blocked
    rw [if_pos blocked] at ideal
    exact stays ideal ran
  rename_i free
  rw [if_neg free] at ideal
  split at ran
  · rename_i tooMuch
    rw [if_pos tooMuch] at ideal
    exact stays ideal ran
  rename_i small
  rw [if_neg small] at ideal
  split at ran
  · rename_i enough
    rw [if_pos enough] at ideal
    exact stays ideal ran
  rename_i short
  rw [if_neg short] at ideal
  rw [if_neg (by rw [owned]; exact Bool.false_ne_true)] at ideal ran
  cases sized : newSize (needed + p.offset + 1) with
  | none =>
      rw [sized] at ideal ran
      exact stays ideal ran
  | some newsize =>
      rw [sized] at ideal ran
      exact grow owned ideal ran

/-- Calls are only ever added. -/
theorem kept_calls (before : List HookCall) :
    Kept (fun p => ∃ calls, p.allocator.calls = before ++ calls) where
  ensure := by
    rintro p q needed granted ⟨calls, split⟩ ran
    rcases ensure_cases ran with same | ⟨block, newsize, _, _, _, grown⟩
    · rw [same]
      exact ⟨calls, split⟩
    · obtain ⟨more, added, _⟩ := grow_asks grown
      refine ⟨calls ++ more, ?_⟩
      rw [added, split, List.append_assoc]
  write := by
    rintro p q index bytes ⟨calls, split⟩ ran
    rcases write_eq_ok ran with ⟨_, _, _, _, rfl⟩
    exact ⟨calls, split⟩
  move := fun _ _ kept => kept

theorem PrintBuffer.granting_updateOffset (p : PrintBuffer) :
    p.granting.updateOffset = p.updateOffset.map granting := by
  have same : p.granting.buffer = p.buffer := rfl
  have place : p.granting.offset = p.offset := rfl
  unfold PrintBuffer.updateOffset
  rw [same, place]
  cases p.buffer with
  | none => rfl
  | some block =>
      dsimp only
      split
      · rfl
      · rfl

/-- Bytes that are stored, and `offset` behind them. -/
theorem Follows.stored {p g q : PrintBuffer} {yes printed : Bool} {index count : Nat} {bytes : Bytes}
    (owned : p.noalloc = false)
    (ideal : (do let after ← p.granting.write index bytes; .ok (true, after.advance count)) = .ok (yes, g))
    (ran : (do let after ← p.write index bytes; .ok (true, after.advance count)) = .ok (printed, q)) :
    Follows p (yes, g) (printed, q) := by
  obtain ⟨_, wroteIdeal, ideal⟩ := Except.bind_eq_ok.mp ideal
  obtain ⟨_, wrote, ran⟩ := Except.bind_eq_ok.mp ran
  cases ideal
  cases ran
  rcases write_eq_ok wroteIdeal with ⟨block, after, found, stored, rfl⟩
  rcases write_eq_ok wrote with ⟨other, others, otherFound, otherStored, rfl⟩
  cases found.symm.trans otherFound
  cases stored.symm.trans otherStored
  exact Follows.quiet rfl rfl owned rfl

/-- Sequencing.  If the hooks refuse something in the first step, the run is over,
and what the granted run asks for afterwards changes nothing. -/
theorem Follows.andThen {step next : PrintBuffer -> Printing} {p g q : PrintBuffer} {yes printed : Bool}
    (front : ∀ {g q : PrintBuffer} {yes printed : Bool}, step p.granting = .ok (yes, g) ->
      step p = .ok (printed, q) -> Follows p (yes, g) (printed, q))
    (back : ∀ {p g q : PrintBuffer} {yes printed : Bool}, p.noalloc = false -> p.buffer.isSome ->
      next p.granting = .ok (yes, g) -> next p = .ok (printed, q) -> Follows p (yes, g) (printed, q))
    (more : ∀ {p q : PrintBuffer} {printed : Bool}, next p = .ok (printed, q) ->
      ∃ calls, q.allocator.calls = p.allocator.calls ++ calls)
    (ideal : orFail (step p.granting) next = .ok (yes, g)) (ran : orFail (step p) next = .ok (printed, q)) :
    Follows p (yes, g) (printed, q) := by
  obtain ⟨⟨yesFront, gFront⟩, idealFront, idealBack⟩ := Except.bind_eq_ok.mp ideal
  obtain ⟨⟨printedFront, qFront⟩, ranFront, ranBack⟩ := Except.bind_eq_ok.mp ran
  obtain ⟨calls, asked, outcome⟩ := front idealFront ranFront
  rcases outcome with ⟨grants, sameAnswer, sameBuffer, hooks, ownedFront, holdsFront⟩ | ⟨refuses, stopped, lost⟩
  · dsimp only at sameAnswer sameBuffer
    subst sameAnswer
    subst sameBuffer
    cases printedFront with
    | false =>
        cases idealBack
        cases ranBack
        exact ⟨calls, asked, Or.inl ⟨grants, rfl, rfl, hooks, ownedFront, holdsFront⟩⟩
    | true =>
        obtain ⟨others, rest, outcome⟩ := back ownedFront holdsFront idealBack ranBack
        refine ⟨calls ++ others, ?_, ?_⟩
        · rw [rest, ← List.append_assoc]
          exact congrArg (· ++ others) asked
        · rw [List.filterMap_append, Hooks.grants_append, Hooks.after_append, ← hooks]
          rcases outcome with ⟨grantsBack, sameAnswer, sameBuffer, rest⟩ | ⟨refuses, lost⟩
          · exact Or.inl ⟨⟨grants, grantsBack⟩, sameAnswer, sameBuffer, rest⟩
          · exact Or.inr ⟨fun both => refuses both.2, lost⟩
  · dsimp only at stopped lost
    subst stopped
    cases ranBack
    have extended : ∃ others, g.allocator.calls = gFront.allocator.calls ++ others := by
      cases yesFront with
      | false =>
          cases idealBack
          exact ⟨[], (List.append_nil _).symm⟩
      | true => exact more idealBack
    obtain ⟨others, rest⟩ := extended
    refine ⟨calls ++ others, ?_, Or.inr ⟨?_, rfl, lost⟩⟩
    · rw [rest, asked, List.append_assoc]
    · rw [List.filterMap_append, Hooks.grants_append]
      exact fun both => refuses both.1

/-- Requests are all that a run learns from its hooks.  Compared with hooks that
refuse nothing, the run goes the same way up to the first refusal, and there it stops. -/
theorem PrintProgram.follows (program : PrintProgram) {p g q : PrintBuffer} {yes printed : Bool}
    (owned : p.noalloc = false) (holds : p.buffer.isSome)
    (ideal : program.run p.granting = .ok (yes, g)) (ran : program.run p = .ok (printed, q)) :
    Follows p (yes, g) (printed, q) := by
  induction program generalizing p g q yes printed with
  | stop _ =>
      cases ideal
      cases ran
      exact Follows.quiet rfl rfl owned holds
  | ensure _ => exact Follows.ensure owned holds ideal ran
  | write index bytes => exact @Follows.stored _ _ _ _ _ index 0 bytes owned ideal ran
  | updateOffset =>
      obtain ⟨_, movedIdeal, ideal⟩ := Except.bind_eq_ok.mp ideal
      obtain ⟨_, moved, ran⟩ := Except.bind_eq_ok.mp ran
      cases ideal
      cases ran
      rw [granting_updateOffset, moved] at movedIdeal
      cases movedIdeal
      obtain ⟨offset, rfl⟩ := updateOffset_eq_ok moved
      exact Follows.quiet rfl rfl owned holds
  | store needed bytes count _ =>
      refine @Follows.andThen (fun p => p.ensure needed) (fun p => do
        let after ← p.write 0 bytes
        .ok (true, after.advance count)) _ _ _ _ _ (Follows.ensure owned holds)
        (fun owned _ => Follows.stored owned) ?_ ideal ran
      intro p q printed ran
      obtain ⟨after, wrote, same⟩ := Except.bind_eq_ok.mp ran
      cases same
      have kept := kept_calls p.allocator.calls
      exact kept.move (after.offset + count) after.depth (kept.write ⟨[], (List.append_nil _).symm⟩ wrote)
  | nest change =>
      cases ideal
      cases ran
      exact Follows.quiet rfl rfl owned holds
  | andThen first second firstFollows secondFollows =>
      refine Follows.andThen (firstFollows owned holds) secondFollows ?_ ideal ran
      intro p q printed ran
      exact second.keeps (kept_calls p.allocator.calls) ⟨[], (List.append_nil _).symm⟩ ran
  | reads _ eachFollows => exact eachFollows p.format p.depth owned holds ideal ran

/-! ## The entry points -/

section Entry

variable {library : CLibrary} {item : Item} {format : Bool} {allocator : Allocator}

theorem LiveSince.start (allocator : Allocator) : LiveSince allocator.calls allocator [] :=
  ⟨[], (List.append_nil _).symm, rfl, fun _ impossible => absurd impossible List.not_mem_nil⟩

theorem LiveSince.tracesCleanly {result : Option Block × Allocator}
    (since : LiveSince allocator.calls result.2 (result.1.map Block.number).toList) :
    TracesCleanly allocator result := by
  rcases since with ⟨calls, split, replayed, _⟩
  exact ⟨calls, split, replayed⟩

/-- A NULL pointer for the deallocate hook. -/
theorem LiveSince.deallocate_null {after : Allocator} {live : List Nat}
    (since : LiveSince allocator.calls after live) :
    ¬ TracesCleanly allocator (none, after.deallocate none) := by
  rcases since with ⟨calls, split, replayed, _⟩
  rintro ⟨all, whole, clean⟩
  have same : allocator.calls ++ (calls ++ [.deallocate none]) = allocator.calls ++ all := by
    rw [← whole, ← List.append_assoc, ← split]
    rfl
  cases List.append_cancel_left same
  rw [replay_append, replayed] at clean
  cases clean

/-- The buffer after the first request. -/
theorem Owns.startIn {size : Nat} {block : Block} {left : Allocator}
    (obtained : allocator.allocate size = (some block, left)) :
    Owns allocator.calls (startIn block size false format left) := by
  have since := @LiveSince.allocate _ _ _ size (LiveSince.start allocator)
  rw [obtained] at since
  exact ⟨rfl, since⟩

theorem Owns.shrink {p : PrintBuffer} {result : Option Block × Allocator}
    (owns : Owns allocator.calls p) (ran : shrink p = .ok result) :
    TracesCleanly allocator result := by
  rcases owns with ⟨_, since⟩
  unfold CJson.shrink at ran
  cases found : p.buffer with
  | none =>
      rw [found] at ran
      cases ran
  | some block =>
      rw [found] at ran since
      dsimp only at ran
      split at ran
      · have moved := @LiveSince.reallocate _ _ (p.offset + 1) _ since
        split at ran
        · rename_i refused
          cases ran
          rw [refused] at moved
          apply LiveSince.tracesCleanly
          simpa using @LiveSince.deallocate _ _ _ block moved List.mem_cons_self
        · rename_i obtained
          cases ran
          rw [obtained] at moved
          exact LiveSince.tracesCleanly moved
      · split at ran
        · rename_i refused
          cases ran
          have kept := @LiveSince.allocate _ _ _ (p.offset + 1) since
          rw [refused] at kept
          apply LiveSince.tracesCleanly
          simpa using @LiveSince.deallocate _ _ _ block kept List.mem_cons_self
        · rename_i obtained
          have copied := since.move obtained
          split at ran
          · cases ran
          · split at ran
            · cases ran
            · rename_i stored
              split at ran
              · cases ran
              · rename_i terminated
                cases ran
                rw [← (Block.write_eq_some stored).1, ← (Block.write_eq_some terminated).1] at copied
                exact LiveSince.tracesCleanly copied

/-- The sizes of the larger blocks that printing asks for if none is refused.  They
depend on the tree, the format and the C library alone: the run is the one under hooks
that grant whatever they are asked, and its requests after the first block are
listed.  Which of them the actual hooks grant is another matter, and that is what the
theorem below compares. -/
def growthRequests (library : CLibrary) (item : Item) (format : Bool) (allocator : Allocator) : List Nat :=
  match allocator.allocate defaultBufferSize with
  | (none, _) => []
  | (some block, left) =>
      match (printValue library item).run (startIn block defaultBufferSize false format left.granting) with
      | .ok (_, p) => (p.allocator.calls.drop left.calls.length).filterMap HookCall.requested
      | .error _ => []

theorem printImpl_tracesCleanly_iff {result : Option Block × Allocator}
    (ran : printImpl library item format allocator = .ok result) :
    TracesCleanly allocator result ↔
      (allocator.hooks.request defaultBufferSize).2.Grants
        (growthRequests library item format allocator) := by
  unfold printImpl at ran
  unfold growthRequests
  have since := @LiveSince.allocate _ _ _ defaultBufferSize (LiveSince.start allocator)
  cases obtained : allocator.allocate defaultBufferSize with
  | mk buffer left =>
      rw [obtained] at ran since
      cases buffer with
      | none =>
          cases ran
          exact iff_of_true (LiveSince.tracesCleanly since) trivial
      | some block =>
          have hooksEq : left.hooks = (allocator.hooks.request defaultBufferSize).2 :=
            (congrArg (Allocator.hooks ∘ Prod.snd) obtained).symm
          have size := Allocator.allocate_eq_some obtained
          obtain ⟨⟨yes, g⟩, ideal, _⟩ := printValue_prints library item _ 0 []
            (@startIn_written format block defaultBufferSize false left.granting size (Or.inl (by decide)))
          obtain ⟨⟨printed, p⟩, ends, ran⟩ := Except.bind_eq_ok.mp ran
          have owns := (printValue library item).keeps (kept_owns allocator.calls)
            (Owns.startIn obtained) ends
          obtain ⟨calls, more, outcome⟩ := (printValue library item).follows
            (rfl : (startIn block defaultBufferSize false format left).noalloc = false) rfl ideal ends
          have requests : g.allocator.calls.drop left.calls.length = calls := by
            rw [more]
            exact List.drop_left
          simp only [ideal, requests]
          rw [← hooksEq]
          rcases outcome with ⟨grants, _, _, _, _, holds⟩ | ⟨refuses, stopped, lost⟩
          · refine iff_of_true ?_ grants
            obtain ⟨last, found⟩ := Option.isSome_iff_exists.mp holds
            cases printed with
            | true =>
                obtain ⟨after, updated, ran⟩ := Except.bind_eq_ok.mp ran
                obtain ⟨offset, rfl⟩ := PrintBuffer.updateOffset_eq_ok updated
                exact Owns.shrink ((kept_owns allocator.calls).move offset p.depth owns) ran
            | false =>
                cases ran
                have live := owns.2
                dsimp only at found
                rw [found] at live
                apply LiveSince.tracesCleanly
                rw [found]
                simpa using @LiveSince.deallocate _ _ _ last live List.mem_cons_self
          · refine iff_of_false ?_ refuses
            dsimp only at stopped lost
            subst stopped
            cases ran
            rw [lost]
            exact LiveSince.deallocate_null owns.2

/-- `cjson_print_buffered` asks whether there still is a buffer. -/
theorem printBuffered_tracesCleanly {prebuffer : Int} {result : Option Block × Allocator}
    (ran : cjsonPrintBuffered library item prebuffer format allocator = .ok result) :
    TracesCleanly allocator result := by
  unfold cjsonPrintBuffered at ran
  have since := @LiveSince.allocate _ _ _ prebuffer.toNat (LiveSince.start allocator)
  split at ran
  · cases ran
    exact LiveSince.tracesCleanly (LiveSince.start allocator)
  split at ran
  · rename_i refused
    cases ran
    rw [refused] at since
    exact LiveSince.tracesCleanly since
  · rename_i obtained
    obtain ⟨⟨printed, p⟩, ends, ran⟩ := Except.bind_eq_ok.mp ran
    have owns := (printValue library item).keeps (kept_owns allocator.calls)
      (Owns.startIn obtained) ends
    have live := owns.2
    cases printed with
    | true =>
        cases ran
        exact LiveSince.tracesCleanly live
    | false =>
        cases found : p.buffer with
        | none =>
            simp only [found] at ran
            cases ran
            rw [found] at live
            exact LiveSince.tracesCleanly live
        | some block =>
            simp only [found] at ran
            cases ran
            rw [found] at live
            apply LiveSince.tracesCleanly
            simpa using @LiveSince.deallocate _ _ _ block live List.mem_cons_self

/-- It can only fail to return if it begins with no memory at all. -/
theorem printBuffered_ends {prebuffer : Int}
    (room : prebuffer = 0 -> allocator.hooks.hasReallocate = true) :
    ∃ result, cjsonPrintBuffered library item prebuffer format allocator = .ok result := by
  unfold cjsonPrintBuffered
  split
  · exact ⟨_, rfl⟩
  rename_i positive
  cases obtained : allocator.allocate prebuffer.toNat with
  | mk buffer left =>
      cases buffer with
      | none => exact ⟨_, rfl⟩
      | some block =>
          have movable : left.hooks.hasReallocate = allocator.hooks.hasReallocate :=
            (congrArg (Hooks.hasReallocate ∘ Allocator.hooks ∘ Prod.snd) obtained).symm
          have roomLeft : 0 < prebuffer.toNat ∨ false = true ∨ left.hooks.hasReallocate = true := by
            by_cases empty : prebuffer = 0
            · exact Or.inr (Or.inr (movable.trans (room empty)))
            · exact Or.inl (by omega)
          obtain ⟨⟨printed, p⟩, ends, _⟩ := printValue_prints library item _ 0 []
            (@startIn_written format block _ false left (Allocator.allocate_eq_some obtained) roomLeft)
          rw [startIn] at ends
          simp only [ends, Except.ok_bind]
          cases printed with
          | true => exact ⟨_, rfl⟩
          | false =>
              cases p.buffer with
              | none => exact ⟨_, rfl⟩
              | some block => exact ⟨_, rfl⟩

end Entry

/-- The hook calls of the entry points: each returns with a clean trace.  That
`cjson_print_buffered` returns is only said where the copy of one byte out of its
first block is not out of bounds. -/
structure PrintsCleanly (library : CLibrary) (item : Item) (format : Bool)
    (allocator : Allocator) : Prop where
  print : ∃ result, (if format then cjsonPrint library item allocator
    else cjsonPrintUnformatted library item allocator) = .ok result ∧ TracesCleanly allocator result
  buffered : ∀ prebuffer : Int,
    ((prebuffer = 0 -> allocator.hooks.hasReallocate = true) ->
      ∃ result, cjsonPrintBuffered library item prebuffer format allocator = .ok result) ∧
    ∀ result, cjsonPrintBuffered library item prebuffer format allocator = .ok result ->
      TracesCleanly allocator result

/-- `print_impl` is clean unless a request for a larger buffer is refused: then it
hands the deallocate hook the NULL that the refusal has left. -/
theorem printsCleanly_iff (library : CLibrary) (item : Item) (format : Bool) (allocator : Allocator) :
    PrintsCleanly library item format allocator ↔
      (allocator.hooks.request defaultBufferSize).2.Grants
        (growthRequests library item format allocator) := by
  have same : (if format then cjsonPrint library item allocator
      else cjsonPrintUnformatted library item allocator) =
      printImpl library item format allocator := by
    cases format
    · rfl
    · rfl
  obtain ⟨result, ran, _⟩ := printImpl_returns library item format allocator
  constructor
  · rintro ⟨⟨other, otherRan, clean⟩, _⟩
    rw [same] at otherRan
    exact (printImpl_tracesCleanly_iff otherRan).mp clean
  · intro grants
    refine ⟨⟨result, same.trans ran, (printImpl_tracesCleanly_iff ran).mpr grants⟩, ?_⟩
    intro prebuffer
    exact ⟨printBuffered_ends, fun _ => printBuffered_tracesCleanly⟩

/-- A string of 300 bytes, and hooks that grant the first request only: the block is
released when the larger one is refused, and NULL after it. -/
theorem refused_growth_releases_null :
    ¬ PrintsCleanly decimalLibrary
      (.mk { type_ := { base := .string }, valuestring := some (List.replicate 300 0x61 ++ [0]) } [] .null)
      false ⟨⟨fun call _ => call == 0, true⟩, fun _ _ => 0, []⟩ := by
  rintro ⟨⟨result, ran, calls, split, clean⟩, _⟩
  have trace : ((cjsonPrintUnformatted decimalLibrary
      (.mk { type_ := { base := .string }, valuestring := some (List.replicate 300 0x61 ++ [0]) } [] .null)
      ⟨⟨fun call _ => call == 0, true⟩, fun _ _ => 0, []⟩).map fun result => result.2.calls) =
      .ok [.allocate 256 true, .reallocate 0 608 false, .deallocate (some 0), .deallocate none] := by
    decide +kernel
  rw [if_neg Bool.false_ne_true] at ran
  rw [ran] at trace
  injection trace with made
  cases made.symm.trans split
  cases clean

end CJson
