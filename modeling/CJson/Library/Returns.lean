import Mathlib.Logic.Basic

/-!
# Postconditions of computations that may stop with an error

`Returns run post` says that a computation in `Except` ends normally, and with
a value that meets a postcondition.  `Yields run post stops` also allows some
errors: a recursion on a budget yields its postcondition, or stops because the
budget was too small; `Ensures run post` allows every error.  `Settles run post` says of such a recursion that every
budget from some point on gives one and the same value.  The rules follow the
syntax of `do` blocks, so that a proof about a function reads in the order of
the function's body.
-/

universe u

/-- The computation ends without an error, in a value that meets `post`.  This is
total correctness: that nothing goes wrong is part of it. -/
def Returns {ε : Type*} {α : Type u} (run : Except ε α) (post : α -> Prop) : Prop :=
  ∃ value, run = .ok value ∧ post value

namespace Returns

variable {ε : Type*} {α β : Type u} {run : Except ε α} {post weaker : α -> Prop}

theorem ok {value : α} (holds : post value) : Returns (.ok value : Except ε α) post :=
  ⟨value, rfl, holds⟩

theorem of_eq {value : α} (ends : run = .ok value) (holds : post value) : Returns run post :=
  ⟨value, ends, holds⟩

/-- The rule of consequence. -/
theorem mono (returns : Returns run post) (implies : ∀ value, post value -> weaker value) :
    Returns run weaker := by
  rcases returns with ⟨value, ends, holds⟩
  exact ⟨value, ends, implies value holds⟩

/-- Sequencing: the second computation may use what the first one establishes. -/
theorem bind {next : α -> Except ε β} {last : β -> Prop} (first : Returns run post)
    (second : ∀ value, run = .ok value -> post value -> Returns (next value) last) :
    Returns (run >>= next) last := by
  rcases first with ⟨value, ends, holds⟩
  rcases second value ends holds with ⟨result, finished, final⟩
  refine ⟨result, ?_, final⟩
  rw [ends]
  exact finished

theorem ite {condition : Prop} [Decidable condition] {other : Except ε α}
    (whenTrue : condition -> Returns run post) (whenFalse : ¬ condition -> Returns other post) :
    Returns (if condition then run else other) post := by
  by_cases decided : condition
  · rw [if_pos decided]
    exact whenTrue decided
  · rw [if_neg decided]
    exact whenFalse decided

/-- What a computation returns meets every postcondition it has. -/
theorem elim {value : α} (returns : Returns run post) (ends : run = .ok value) : post value := by
  rcases returns with ⟨other, finished, holds⟩
  rw [ends] at finished
  injection finished with same
  exact same ▸ holds

end Returns

/-- The computation ends in a value that meets `post`, or in an error that meets
`stops`. -/
def Yields {ε : Type*} {α : Type u} (run : Except ε α) (post : α -> Prop) (stops : ε -> Prop) :
    Prop :=
  match run with
  | .ok value => post value
  | .error fault => stops fault

namespace Yields

variable {ε : Type*} {α β : Type u} {run : Except ε α} {post weaker : α -> Prop}
  {stops allowed : ε -> Prop}

theorem ok {value : α} (holds : post value) : Yields (.ok value : Except ε α) post stops := holds

theorem error {fault : ε} (holds : stops fault) :
    Yields (.error fault : Except ε α) post stops := holds

theorem of_returns (returns : Returns run post) : Yields run post stops := by
  rcases returns with ⟨value, ends, holds⟩
  rw [ends]
  exact holds

/-- Without a permitted error the computation returns. -/
theorem returns (yields : Yields run post stops) (never : ∀ fault, ¬ stops fault) :
    Returns run post := by
  cases run with
  | ok value => exact ⟨value, rfl, yields⟩
  | error fault => exact absurd yields (never fault)

theorem elim {value : α} (yields : Yields run post stops) (ends : run = .ok value) :
    post value := by
  rw [ends] at yields
  exact yields

theorem mono (yields : Yields run post stops) (implies : ∀ value, post value -> weaker value)
    (permits : ∀ fault, stops fault -> allowed fault) : Yields run weaker allowed := by
  cases run with
  | ok value => exact implies value yields
  | error fault => exact permits fault yields

theorem bind {next : α -> Except ε β} {last : β -> Prop} (first : Yields run post stops)
    (permits : ∀ fault, stops fault -> allowed fault)
    (second : ∀ value, post value -> Yields (next value) last allowed) :
    Yields (run >>= next) last allowed := by
  cases run with
  | ok value => exact second value first
  | error fault => exact permits fault first

theorem bind_returns {next : α -> Except ε β} {last : β -> Prop} (first : Returns run post)
    (second : ∀ value, post value -> Yields (next value) last stops) :
    Yields (run >>= next) last stops := by
  rcases first with ⟨value, ends, holds⟩
  rw [ends]
  exact second value holds

/-- A computation about which nothing has to be known. -/
theorem step {next : α -> Except ε β} {last : β -> Prop}
    (each : ∀ value, Yields (next value) last (fun _ => True)) :
    Yields (run >>= next) last (fun _ => True) := by
  cases run with
  | ok value => exact each value
  | error fault => exact trivial

theorem ite {condition : Prop} [Decidable condition] {other : Except ε α}
    (whenTrue : condition -> Yields run post stops)
    (whenFalse : ¬ condition -> Yields other post stops) :
    Yields (if condition then run else other) post stops := by
  by_cases decided : condition
  · rw [if_pos decided]
    exact whenTrue decided
  · rw [if_neg decided]
    exact whenFalse decided

end Yields

/-- If the computation ends in a value, that meets `post`.  Of errors nothing is said. -/
def Ensures {ε : Type*} {α : Type u} (run : Except ε α) (post : α -> Prop) : Prop :=
  Yields run post (fun _ => True)

namespace Ensures

variable {ε : Type*} {α β : Type u} {run : Except ε α} {post weaker : α -> Prop}

theorem ok {value : α} (holds : post value) : Ensures (.ok value : Except ε α) post := holds

theorem error {fault : ε} : Ensures (.error fault : Except ε α) post := trivial

theorem elim {value : α} (ensures : Ensures run post) (ends : run = .ok value) : post value :=
  Yields.elim ensures ends

theorem mono (ensures : Ensures run post) (implies : ∀ value, post value -> weaker value) : Ensures run weaker :=
  Yields.mono ensures implies fun _ _ => trivial

theorem bind {next : α -> Except ε β} {last : β -> Prop} (first : Ensures run post)
    (second : ∀ value, post value -> Ensures (next value) last) : Ensures (run >>= next) last :=
  Yields.bind first (fun _ _ => trivial) second

/-- A computation about which nothing has to be known. -/
theorem step {next : α -> Except ε β} {last : β -> Prop} (each : ∀ value, Ensures (next value) last) :
    Ensures (run >>= next) last :=
  Yields.step each

theorem ite {condition : Prop} [Decidable condition] {other : Except ε α}
    (whenTrue : condition -> Ensures run post) (whenFalse : ¬ condition -> Ensures other post) :
    Ensures (if condition then run else other) post :=
  Yields.ite whenTrue whenFalse

/-- A computation of which only the value matters. -/
theorem follow {next : α -> Except ε β} {last : β -> Prop}
    (each : ∀ value, run = .ok value -> Ensures (next value) last) : Ensures (run >>= next) last := by
  cases run with
  | ok value => exact each value rfl
  | error fault => exact trivial

theorem any : Ensures run (fun _ => True) := by
  cases run <;> exact trivial

/-- Both branches go on with the same computation. -/
theorem iteBind {condition : Prop} [Decidable condition] {other : Except ε α} {next : α -> Except ε β}
    {last : β -> Prop} (whenTrue : condition -> Ensures run post) (whenFalse : ¬ condition -> Ensures other post)
    (rest : ∀ value, post value -> Ensures (next value) last) :
    Ensures (if condition then run >>= next else other >>= next) last :=
  ite (fun decided => (whenTrue decided).bind rest) (fun decided => (whenFalse decided).bind rest)

end Ensures

/-- Every large enough budget gives the same value, and that meets `post`.  So the
recursion ends, and what it returns does not depend on the budget that the model has
given it. -/
def Settles {ε : Type*} {α : Type u} (run : Nat -> Except ε α) (post : α -> Prop) : Prop :=
  ∃ enough value, (∀ fuel, enough ≤ fuel -> run fuel = .ok value) ∧ post value

namespace Settles

variable {ε : Type*} {α β : Type u} {run : Nat -> Except ε α} {post weaker : α -> Prop}

theorem of_returns {result : Except ε α} (returns : Returns result post) :
    Settles (fun _ => result) post := by
  rcases returns with ⟨value, ends, holds⟩
  exact ⟨0, value, fun _ _ => ends, holds⟩

theorem ok {value : α} (holds : post value) : Settles (fun _ => (.ok value : Except ε α)) post :=
  of_returns (Returns.ok holds)

theorem mono (settles : Settles run post) (implies : ∀ value, post value -> weaker value) :
    Settles run weaker := by
  rcases settles with ⟨enough, value, ends, holds⟩
  exact ⟨enough, value, ends, implies value holds⟩

/-- The value is one and the same in all that is known of it. -/
theorem and {other : α -> Prop} (settles : Settles run post) (also : Settles run other) :
    Settles run fun value => post value ∧ other value := by
  rcases settles with ⟨enough, value, ends, holds⟩
  rcases also with ⟨more, second, finishes, final⟩
  have same : value = second := by
    have both := (ends _ (Nat.le_max_left enough more)).symm.trans (finishes _ (Nat.le_max_right enough more))
    injection both
  exact ⟨enough, value, ends, holds, same ▸ final⟩

/-- What holds of every value, whatever the budget, holds of the one it settles on. -/
theorem ensures {other : α -> Prop} (settles : Settles run post) (also : ∀ fuel, Ensures (run fuel) other) :
    Settles run fun value => post value ∧ other value := by
  rcases settles with ⟨enough, value, ends, holds⟩
  exact ⟨enough, value, ends, holds, (also enough).elim (ends enough (Nat.le_refl _))⟩

/-- One unit of the budget is spent on a call. -/
theorem succ (settles : Settles (fun fuel => run (fuel + 1)) post) : Settles run post := by
  rcases settles with ⟨enough, value, ends, holds⟩
  refine ⟨enough + 1, value, ?_, holds⟩
  intro fuel large
  cases fuel with
  | zero => exact absurd large (Nat.not_succ_le_zero _)
  | succ fuel => exact ends fuel (Nat.le_of_succ_le_succ large)

/-- A larger budget does no harm. -/
theorem pred (settles : Settles run post) : Settles (fun fuel => run (fuel + 1)) post := by
  rcases settles with ⟨enough, value, ends, holds⟩
  exact ⟨enough, value, fun fuel large => ends (fuel + 1) (Nat.le_succ_of_le large), holds⟩

/-- Calls that share a budget. -/
theorem bind {next : Nat -> α -> Except ε β} {last : β -> Prop} (first : Settles run post)
    (second : ∀ value, post value -> Settles (fun fuel => next fuel value) last) :
    Settles (fun fuel => run fuel >>= next fuel) last := by
  rcases first with ⟨enough, value, ends, holds⟩
  rcases second value holds with ⟨more, result, finishes, final⟩
  refine ⟨max enough more, result, ?_, final⟩
  intro fuel large
  dsimp only
  rw [ends fuel (Nat.le_trans (Nat.le_max_left _ _) large)]
  exact finishes fuel (Nat.le_trans (Nat.le_max_right _ _) large)

theorem congr {other : Nat -> Except ε α} (settles : Settles run post)
    (same : ∀ fuel, other fuel = run fuel) : Settles other post := by
  rcases settles with ⟨enough, value, ends, holds⟩
  exact ⟨enough, value, fun fuel large => (same fuel).trans (ends fuel large), holds⟩

end Settles

/-- Whatever the budget is, a value meets `post`; and under the condition `safe` the
computation settles on one. -/
structure Completes {ε : Type*} {α : Type u} (safe : Prop) (run : Nat -> Except ε α) (post : α -> Prop) : Prop where
  ensures : ∀ fuel, Ensures (run fuel) post
  settles : safe -> Settles run post

namespace Completes

variable {ε : Type*} {α β : Type u} {safe : Prop} {run : Nat -> Except ε α} {post weaker : α -> Prop}

theorem of_returns {result : Except ε α} (returns : Returns result post) : Completes safe (fun _ => result) post :=
  ⟨fun _ => Yields.of_returns returns, fun _ => Settles.of_returns returns⟩

/-- A computation without a budget returns if it is safe. -/
theorem of_ensures {result : Except ε α} (ensures : Ensures result post)
    (returns : safe -> ∃ value, result = .ok value) : Completes safe (fun _ => result) post := by
  refine ⟨fun _ => ensures, ?_⟩
  intro holds
  rcases returns holds with ⟨value, ends⟩
  exact Settles.of_returns ⟨value, ends, ensures.elim ends⟩

theorem ok {value : α} (holds : post value) : Completes safe (fun _ => (.ok value : Except ε α)) post :=
  of_returns (Returns.ok holds)

theorem mono (completes : Completes safe run post) (implies : ∀ value, post value -> weaker value) :
    Completes safe run weaker :=
  ⟨fun fuel => (completes.ensures fuel).mono implies, fun holds => (completes.settles holds).mono implies⟩

/-- A computation whose value is used below. -/
theorem known {result : Except ε α} (returns : safe -> ∃ value, result = .ok value) :
    Completes safe (fun _ => result) (fun value => result = .ok value) := by
  apply of_ensures _ returns
  cases result with
  | ok value => exact Ensures.ok rfl
  | error fault => exact Ensures.error

/-- A larger budget does no harm. -/
theorem pred (completes : Completes safe run post) : Completes safe (fun fuel => run (fuel + 1)) post :=
  ⟨fun fuel => completes.ensures (fuel + 1), fun holds => (completes.settles holds).pred⟩

theorem bind {next : Nat -> α -> Except ε β} {last : β -> Prop} (first : Completes safe run post)
    (second : ∀ value, post value -> Completes safe (fun fuel => next fuel value) last) :
    Completes safe (fun fuel => run fuel >>= next fuel) last where
  ensures fuel := (first.ensures fuel).bind (fun value holds => (second value holds).ensures fuel)
  settles holds := (first.settles holds).bind (fun value meets => (second value meets).settles holds)

end Completes

@[simp] theorem Except.ok_bind {ε : Type*} {α β : Type u} (value : α) (next : α -> Except ε β) :
    ((Except.ok value : Except ε α) >>= next) = next value := rfl

@[simp] theorem Except.error_bind {ε : Type*} {α β : Type u} (fault : ε) (next : α -> Except ε β) :
    ((Except.error fault : Except ε α) >>= next) = .error fault := rfl

/-- A sequence of computations that has returned has returned from both. -/
theorem Except.bind_eq_ok {ε : Type*} {α β : Type u} {run : Except ε α}
    {next : α -> Except ε β} {result : β} :
    run >>= next = .ok result ↔ ∃ value, run = .ok value ∧ next value = .ok result := by
  cases run with
  | error fault =>
      constructor
      · intro impossible
        exact absurd impossible (by intro same; cases same)
      · rintro ⟨value, impossible, _⟩
        cases impossible
  | ok value =>
      constructor
      · intro finished
        exact ⟨value, rfl, finished⟩
      · rintro ⟨same, found, finished⟩
        injection found with equal
        rw [equal]
        exact finished
