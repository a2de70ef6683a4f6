import CJson.Alloc

/-!
# The hook calls as a trace

The calls of the hooks during a run are a trace over a set of live blocks: a
request that is granted adds its block, a release takes one away, and a call
with a pointer to anything else has no meaning.
-/

namespace CJson

/-- The blocks that are live after some calls, the first of which has this
number.  There are none if a call gives a pointer to a hook that is not one to a
live block, NULL included. -/
def replay : Nat -> List Nat -> List HookCall -> Option (List Nat)
  | _, live, [] => some live
  | number, live, .allocate _ granted :: calls =>
      replay (number + 1) (if granted then number :: live else live) calls
  | number, live, .reallocate block _ granted :: calls =>
      if block ∈ live then
        replay (number + 1) (if granted then number :: live.erase block else live) calls
      else none
  | _, _, .deallocate none :: _ => none
  | number, live, .deallocate (some block) :: calls =>
      if block ∈ live then replay (number + 1) (live.erase block) calls else none

theorem replay_append (number : Nat) (live : List Nat) (first second : List HookCall) :
    replay number live (first ++ second) =
      (replay number live first).bind fun live => replay (number + first.length) live second := by
  induction first generalizing number live with
  | nil => rfl
  | cons call first ih =>
      have shift : number + 1 + first.length = number + (call :: first).length := by
        rw [List.length_cons]
        omega
      cases call with
      | allocate size granted => rw [List.cons_append, replay, replay, ih, shift]
      | reallocate block size granted =>
          rw [List.cons_append, replay, replay]
          by_cases isLive : block ∈ live
          · rw [if_pos isLive, if_pos isLive, ih, shift]
          · rw [if_neg isLive, if_neg isLive, Option.bind_none]
      | deallocate block =>
          cases block with
          | none => rfl
          | some block =>
              rw [List.cons_append, replay, replay]
              by_cases isLive : block ∈ live
              · rw [if_pos isLive, if_pos isLive, ih, shift]
              · rw [if_neg isLive, if_neg isLive, Option.bind_none]

/-- Live blocks are distinct, and each is named by an earlier call. -/
theorem replay_named {number : Nat} {live now : List Nat} {calls : List HookCall} (distinct : live.Nodup)
    (named : ∀ block ∈ live, block < number) (replayed : replay number live calls = some now) :
    now.Nodup ∧ ∀ block ∈ now, block < number + calls.length := by
  induction calls generalizing number live with
  | nil =>
      cases replayed
      exact ⟨distinct, named⟩
  | cons call calls ih =>
      have shift : number + 1 + calls.length = number + (call :: calls).length := by
        rw [List.length_cons]
        omega
      have later : ∀ {rest : List Nat}, rest.Nodup -> (∀ block ∈ rest, block < number) ->
          (number :: rest).Nodup ∧ ∀ block ∈ number :: rest, block < number + 1 := by
        intro rest distinct named
        refine ⟨List.nodup_cons.mpr ⟨fun inside => Nat.lt_irrefl _ (named number inside), distinct⟩, ?_⟩
        intro block inside
        rcases List.mem_cons.mp inside with rfl | old
        · exact Nat.lt_succ_self _
        · exact Nat.lt_succ_of_lt (named block old)
      have kept : ∀ {rest : List Nat}, (∀ block ∈ rest, block < number) -> ∀ block ∈ rest, block < number + 1 :=
        fun named block inside => Nat.lt_succ_of_lt (named block inside)
      have erased : ∀ block : Nat, (live.erase block).Nodup ∧ ∀ other ∈ live.erase block, other < number :=
        fun block => ⟨distinct.erase block, fun other inside => named other (List.mem_of_mem_erase inside)⟩
      rw [← shift]
      cases call with
      | allocate size granted =>
          rw [replay] at replayed
          cases granted with
          | true => exact ih (later distinct named).1 (later distinct named).2 replayed
          | false => exact ih distinct (kept named) replayed
      | reallocate block size granted =>
          rw [replay] at replayed
          split at replayed
          · cases granted with
            | true =>
                exact ih (later (erased block).1 (erased block).2).1
                  (later (erased block).1 (erased block).2).2 replayed
            | false => exact ih distinct (kept named) replayed
          · cases replayed
      | deallocate block =>
          cases block with
          | none => cases replayed
          | some block =>
              rw [replay] at replayed
              split at replayed
              · exact ih (erased block).1 (kept (erased block).2) replayed
              · cases replayed

end CJson
