import CJson.Library.CString

/-!
# Allocation hooks

All memory comes from the hooks of `alloc.rs`.  What a caller sees of them is
whether a request gets a block; the model keeps the answers that are still to
come, one for each call.  The parser's model needs no more than that.  The
printer moves its output from block to block, so there the calls are recorded,
and a block is named by the number of the call that returned it.
-/

namespace CJson

open CString

/-- `InternalHooks`.  `answers call size` tells whether the request with that
number, counted from now on, gets a block if it asks for `size` bytes. -/
structure Hooks where
  answers : Nat -> Nat -> Bool
  /-- Whether a `reallocate` function is installed. -/
  hasReallocate : Bool

namespace Hooks

/-- One call of `allocate` or `reallocate`. -/
def request (hooks : Hooks) (size : Nat) : Bool × Hooks :=
  (hooks.answers 0 size, { hooks with answers := fun call => hooks.answers (call + 1) })

/-- Every request gets its block, now and later on.  With such hooks a run can fail
only because of its input. -/
def AlwaysSucceed (hooks : Hooks) : Prop :=
  ∀ call size, hooks.answers call size = true

/-- Hooks that always succeed stay as they are. -/
theorem request_of_alwaysSucceed {hooks : Hooks} (succeeds : hooks.AlwaysSucceed) (size : Nat) :
    hooks.request size = (true, hooks) := by
  have answers : (fun call => hooks.answers (call + 1)) = hooks.answers := by
    funext call asked
    rw [succeeds (call + 1) asked, succeeds call asked]
  simp only [request, answers, succeeds 0 size]

end Hooks

/-- `size_of::<CJson>()`. -/
def nodeSize : Nat := 64

/-- A block of memory: the number of the call that returned it, and its bytes.  The
number is what a release refers to; two blocks of one run never share it. -/
structure Block where
  number : Nat
  bytes : Bytes

/-- Store bytes in a block, `none` outside its bounds. -/
def Block.write (block : Block) (start : Nat) (bytes : Bytes) : Option Block :=
  if start + bytes.length ≤ block.bytes.length then
    some { block with
      bytes := block.bytes.take start ++ (bytes ++ block.bytes.drop (start + bytes.length)) }
  else none

/-- A call of a hook, with its size and whether it got a block.  A release carries the
number of the block, or nothing for NULL; the list of these calls is all that a custom
allocator sees of a run. -/
inductive HookCall where
  | allocate (size : Nat) (granted : Bool)
  | reallocate (block size : Nat) (granted : Bool)
  | deallocate (block : Option Nat)
  deriving DecidableEq, Repr

/-- The hooks, what fresh memory holds, and the calls made so far.  Fresh memory is
not zeroed: what it holds is a parameter, so that nothing can be proved of bytes that
have not been written. -/
structure Allocator where
  hooks : Hooks
  /-- The bytes of the block that a call returns. -/
  garbage : Nat -> Nat -> UInt8
  calls : List HookCall

namespace Allocator

/-- `allocate(size)`. -/
def allocate (allocator : Allocator) (size : Nat) : Option Block × Allocator :=
  let number := allocator.calls.length
  let granted := (allocator.hooks.request size).1
  (if granted then some ⟨number, (List.range size).map (allocator.garbage number)⟩ else none,
    { allocator with
      hooks := (allocator.hooks.request size).2
      calls := allocator.calls ++ [.allocate size granted] })

/-- `reallocate(block, size)`: the old bytes, as far as they fit, and garbage
behind them. -/
def reallocate (allocator : Allocator) (block : Block) (size : Nat) : Option Block × Allocator :=
  let number := allocator.calls.length
  let granted := (allocator.hooks.request size).1
  let fresh := (List.range size).map (allocator.garbage number)
  (if granted then
      some ⟨number, block.bytes.take size ++ fresh.drop (min size block.bytes.length)⟩ else none,
    { allocator with
      hooks := (allocator.hooks.request size).2
      calls := allocator.calls ++ [.reallocate block.number size granted] })

/-- `deallocate(block)`, where the block may be NULL. -/
def deallocate (allocator : Allocator) (block : Option Block) : Allocator :=
  { allocator with calls := allocator.calls ++ [.deallocate (block.map Block.number)] }

end Allocator

end CJson
