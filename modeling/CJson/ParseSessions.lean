import CJson.ParseOwners
import CJson.Prefix

/-!
# Programs that parse and delete

A program parses texts and deletes the trees it has got, in any order, while the hooks grant
and refuse what they like.  At every moment the live blocks are those of the trees that it
still has, so that nothing is left once the last of them has been deleted.
-/

namespace CJson

open Placed Tracing

/-- A call that such a program makes.  The hooks may be others each time, and a parse
may fail or succeed. -/
inductive SessionCall where
  /-- `cjson_parse_with_length_opts`, with the hooks of the moment. -/
  | parse (hooks : Hooks) (content : Bytes) (requireNullTerminated : Bool)
  /-- `cjson_delete` of one of the trees, or of NULL if there is none of that number. -/
  | delete (position : Nat)

/-- The trees that the program has, and the calls of the hooks so far. -/
structure Session where
  held : List Placed
  calls : List HookCall

namespace Session

/-- A trace that goes on behind these calls; no buffer is being read. -/
def tracing (calls : List HookCall) : Tracing := ⟨⟨[], 0, 0, 0, ⟨fun _ _ => false, false⟩⟩, calls⟩

/-- One call.  A tree that has been parsed is kept with the others, and so is the
history of the hooks; a deletion of a position that holds no tree does nothing. -/
def step (library : CLibrary) (session : Session) : SessionCall -> Except Fault Session
  | .parse hooks content requireNullTerminated => do
      let (tree, t) ← cjsonParseWithLengthOptsTraced library hooks content content.length requireNullTerminated
        session.calls
      .ok ⟨session.held ++ tree.toList, t.calls⟩
  | .delete position =>
      let t := Tracing.delete (session.held[position]?).toList (tracing session.calls)
      .ok ⟨session.held.eraseIdx position, t.calls⟩

/-- Calls one after the other. -/
def run (library : CLibrary) : List SessionCall -> Session -> Except Fault Session
  | [], session => .ok session
  | call :: calls, session => do
      let session ← step library session call
      run library calls session

/-- The live blocks are those of the trees, and each is owned by one node.  It is the
invariant of a session: a parse adds a tree and its blocks, a deletion takes both
away. -/
def Owns (session : Session) : Prop :=
  (∀ tree ∈ session.held, tree.Owned) ∧
    ∃ live, replay 0 [] session.calls = some live ∧ live.Nodup ∧ live.Perm (blocksOf session.held)

theorem owns_of_holds {session : Session} {before : List HookCall} {live now : List Nat} {t : Tracing}
    (history : replay 0 [] before = some live) (owned : ∀ tree ∈ session.held, tree.Owned)
    (called : session.calls = t.calls) (holds : Holds before live t now) (same : now.Perm (blocksOf session.held)) :
    session.Owns := by
  rcases holds with ⟨more, listed, split, replayed, order, distinct, _⟩
  refine ⟨owned, listed, ?_, order.nodup_iff.mpr distinct, order.trans same⟩
  rw [called, split, replay_append, history, Option.bind_some, Nat.zero_add]
  exact replayed

variable {library : CLibrary} {session : Session}

/-- A parse ends, and leaves the blocks of a tree or nothing, whatever has been live
before it. -/
theorem parse_leaves (consumes : library.ConsumesAtMost) (hooks : Hooks) (content : Bytes)
    (requireNullTerminated : Bool) {before : List HookCall} {outside : List Nat} (distinct : outside.Nodup)
    (named : ∀ block ∈ outside, block < before.length) :
    ∃ result, cjsonParseWithLengthOptsTraced library hooks content content.length requireNullTerminated before =
      .ok result ∧ LeavesTree before outside result := by
  have leaves := cjsonParseWithLengthOptsTraced_leaves library hooks content content.length requireNullTerminated
    distinct named
  have erases := cjsonParseWithLengthOptsTraced_erases library hooks content content.length requireNullTerminated
    before
  rcases cjsonParseWithLengthOpts_ends consumes hooks content requireNullTerminated with ⟨outcome, ran⟩
  rw [ran] at erases
  cases traced : cjsonParseWithLengthOptsTraced library hooks content content.length requireNullTerminated
      before with
  | error fault =>
      rw [traced] at erases
      cases erases
  | ok result =>
      rw [traced] at leaves
      exact ⟨result, rfl, leaves⟩

theorem blocksOf_perm {items others : List Placed} (same : items.Perm others) :
    (blocksOf items).Perm (blocksOf others) := by
  have flat : ∀ items, blocksOf items = items.flatMap blocks := by
    intro items
    induction items with
    | nil => rfl
    | cons item rest ih => rw [blocksOf, ih, List.flatMap_cons]
  rw [flat, flat]
  exact same.flatMap_right blocks

/-- Every call ends, and keeps the trees and the live blocks in step. -/
theorem step_owns (consumes : library.ConsumesAtMost) (owns : session.Owns) (call : SessionCall) :
    ∃ after, session.step library call = .ok after ∧ after.Owns := by
  rcases owns with ⟨owned, live, history, distinct, listed⟩
  have named := (replay_named List.nodup_nil (fun _ impossible => absurd impossible List.not_mem_nil) history).2
  rw [Nat.zero_add] at named
  cases call with
  | parse hooks content requireNullTerminated =>
      rcases parse_leaves consumes hooks content requireNullTerminated distinct named with
        ⟨⟨tree, t⟩, ran, leaves⟩
      refine ⟨⟨session.held ++ tree.toList, t.calls⟩, by rw [step, ran]; rfl, ?_⟩
      cases tree with
      | none =>
          rw [Option.toList_none, List.append_nil]
          exact owns_of_holds history owned rfl leaves listed
      | some tree =>
          rcases leaves with ⟨treeOwned, holds⟩
          refine owns_of_holds history ?_ rfl holds ?_
          · rw [Option.toList_some]
            exact List.forall_mem_append.mpr ⟨owned, by simpa using treeOwned⟩
          · rw [Option.toList_some, blocksOf_append, blocksOf, blocksOf, List.append_nil]
            exact (listed.append_left _).trans List.perm_append_comm
  | delete position =>
      refine ⟨_, rfl, ?_⟩
      cases there : session.held[position]? with
      | none =>
          rw [List.eraseIdx_of_length_le (List.getElem?_eq_none_iff.mp there)]
          exact ⟨owned, live, history, distinct, listed⟩
      | some tree =>
          rcases List.getElem?_eq_some_iff.mp there with ⟨bound, rfl⟩
          have apart := blocksOf_perm (List.getElem_cons_eraseIdx_perm bound)
          have start : Holds session.calls live (tracing session.calls) live :=
            ⟨[], live, (List.append_nil _).symm, rfl, List.Perm.refl _, distinct, named⟩
          have front : Holds session.calls live (tracing session.calls)
              (blocksOf [session.held[position]] ++ blocksOf (session.held.eraseIdx position)) := by
            rw [← blocksOf_append]
            exact start.perm (listed.trans apart.symm)
          have alone : ∀ tree ∈ [session.held[position]], tree.Owned := by
            intro tree member
            rw [List.mem_singleton.mp member]
            exact owned _ (List.getElem_mem bound)
          refine owns_of_holds history (fun other member => owned other (List.mem_of_mem_eraseIdx member)) rfl
            (Holds.delete alone front) (List.Perm.refl _)

/-- The trees and the live blocks stay in step over a whole run. -/
theorem run_owns (consumes : library.ConsumesAtMost) (owns : session.Owns) (calls : List SessionCall) :
    ∃ after, run library calls session = .ok after ∧ after.Owns := by
  induction calls generalizing session with
  | nil => exact ⟨session, rfl, owns⟩
  | cons call calls ih =>
      rcases step_owns consumes owns call with ⟨middle, stepped, kept⟩
      rcases ih kept with ⟨after, ran, owned⟩
      refine ⟨after, ?_, owned⟩
      rw [run, stepped]
      exact ran

/-- Whatever is parsed and deleted in whichever order, and whatever the hooks refuse: no pointer
is released that is not live, the live blocks are always those of the trees that are left, each
owned by one node, and without trees there are none. -/
theorem run_balances (library : CLibrary) (consumes : library.ConsumesAtMost) (calls : List SessionCall) :
    ∃ session, run library calls ⟨[], []⟩ = .ok session ∧ (∀ tree ∈ session.held, tree.Owned) ∧
      ∃ live, replay 0 [] session.calls = some live ∧ live.Nodup ∧ live.Perm (blocksOf session.held) ∧
        (session.held = [] -> live = []) := by
  have start : Owns ⟨[], []⟩ :=
    ⟨fun _ impossible => absurd impossible List.not_mem_nil, [], rfl, List.nodup_nil, List.Perm.refl _⟩
  rcases run_owns consumes start calls with ⟨session, ran, owned, live, history, distinct, listed⟩
  refine ⟨session, ran, owned, live, history, distinct, listed, fun nothing => ?_⟩
  rw [nothing] at listed
  exact listed.eq_nil

/-- Of three parses the second one is refused a node; then the first tree is deleted. -/
theorem run_balances_refused :
    ∃ session, run decimalLibrary [.parse grantAll nestedText true,
        .parse ⟨fun call _ => call != 5, true⟩ nestedText false, .parse grantAll nestedText false, .delete 0]
        ⟨[], []⟩ = .ok session ∧ (∀ tree ∈ session.held, tree.Owned) ∧
      ∃ live, replay 0 [] session.calls = some live ∧ live.Nodup ∧ live.Perm (blocksOf session.held) ∧
        (session.held = [] -> live = []) :=
  run_balances decimalLibrary decimalLibrary_consumesAtMost _

end Session
end CJson
