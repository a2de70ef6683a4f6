import CJson.Rendering

/-!
# What every run of the printer keeps

Whatever tree it prints, the printer touches the buffer through `ensure`, stores
behind `offset`, scans for the terminator and the two counters only.  What each
of these keeps is kept by every run, by induction on the program, so a fact about
the memory of a run does not need another look at the functions that print.
-/

namespace CJson

open CString PrintBuffer

/-- A property of the buffer that no operation breaks.  `write` stands for every
store, and `move` for all that changes nothing but the two counters. -/
structure Kept (property : PrintBuffer -> Prop) : Prop where
  ensure : ∀ {p q : PrintBuffer} {needed : Nat} {granted : Bool}, property p ->
    p.ensure needed = .ok (granted, q) -> property q
  write : ∀ {p q : PrintBuffer} {index : Nat} {bytes : Bytes}, property p ->
    p.write index bytes = .ok q -> property q
  move : ∀ {p : PrintBuffer} (offset depth : Nat), property p ->
    property { p with offset := offset, depth := depth }

theorem PrintBuffer.updateOffset_eq_ok {p q : PrintBuffer} (updated : p.updateOffset = .ok q) :
    ∃ offset, q = { p with offset := offset } := by
  unfold PrintBuffer.updateOffset at updated
  split at updated
  · cases updated
    exact ⟨p.offset, rfl⟩
  · dsimp only at updated
    split at updated
    · cases updated
      exact ⟨_, rfl⟩
    · cases updated

theorem Kept.store {property : PrintBuffer -> Prop} (kept : Kept property) {p q : PrintBuffer}
    {needed count : Nat} {bytes : Bytes} {printed : Bool} (start : property p)
    (ran : CJson.store p needed bytes count = .ok (printed, q)) : property q := by
  obtain ⟨⟨granted, middle⟩, ensured, ran⟩ := Except.bind_eq_ok.mp ran
  have reserved := kept.ensure start ensured
  cases granted with
  | false =>
      cases ran
      exact reserved
  | true =>
      obtain ⟨after, wrote, ran⟩ := Except.bind_eq_ok.mp ran
      cases ran
      exact kept.move (after.offset + count) after.depth (kept.write reserved wrote)

/-- What the operations keep, a whole run keeps. -/
theorem PrintProgram.keeps (program : PrintProgram) {property : PrintBuffer -> Prop}
    (kept : Kept property) {p q : PrintBuffer} {printed : Bool} (start : property p)
    (ran : program.run p = .ok (printed, q)) : property q := by
  induction program generalizing p q printed with
  | stop _ =>
      cases ran
      exact start
  | ensure _ => exact kept.ensure start ran
  | write _ _ =>
      obtain ⟨after, wrote, ran⟩ := Except.bind_eq_ok.mp ran
      cases ran
      exact kept.write start wrote
  | updateOffset =>
      obtain ⟨after, updated, ran⟩ := Except.bind_eq_ok.mp ran
      cases ran
      obtain ⟨offset, rfl⟩ := PrintBuffer.updateOffset_eq_ok updated
      exact kept.move offset p.depth start
  | store _ _ _ _ => exact kept.store start ran
  | nest change =>
      cases ran
      exact kept.move p.offset (change p.depth) start
  | andThen _ _ frontKeeps backKeeps =>
      obtain ⟨⟨granted, middle⟩, front, ran⟩ := Except.bind_eq_ok.mp ran
      have between := frontKeeps start front
      cases granted with
      | false =>
          cases ran
          exact between
      | true => exact backKeeps between ran
  | reads _ eachKeeps => exact eachKeeps p.format p.depth start ran

end CJson
