/-
Programs that return, raise an exception or are killed.

A `finally` clause runs behind a return and behind an exception, and an exception of its own
replaces both.  Nothing runs any more in a program that was killed.
-/

namespace Library

inductive Exit (ε : Type)
  | raised (exception : ε)
  | killed
  deriving DecidableEq

/-- A program over a state, with exceptions. -/
abbrev Program (ε σ α : Type) := EStateM (Exit ε) σ α

namespace Program

variable {ε σ α : Type}

/-- `try: body except ..`, where the result of a caught exception is `none`. -/
def tryExcept (catches : ε → Bool) (body : Program ε σ α) : Program ε σ (Option α) := fun state =>
  match body state with
  | .ok value after => .ok (some value) after
  | .error (.raised exception) after =>
      if catches exception then .ok none after else .error (.raised exception) after
  | .error .killed after => .error .killed after

/-- `try: body finally: cleanup`. -/
def andFinally (body : Program ε σ α) (cleanup : Program ε σ Unit) : Program ε σ α := fun state =>
  match body state with
  | .ok value after => (do cleanup; return value : Program ε σ α) after
  | .error (.raised exception) after => (do cleanup; throw (Exit.raised exception) : Program ε σ α) after
  | .error .killed after => .error .killed after

/-- What holds of the state that is left, unless the program was killed. -/
def Leaves (holds : σ → Prop) : EStateM.Result (Exit ε) σ α → Prop
  | .ok _ after => holds after
  | .error (.raised _) after => holds after
  | .error .killed _ => True

/-- What holds behind a program, and is kept by the code behind its return, holds at the end. -/
theorem leaves_bind {β : Type} {holds : σ → Prop} {body : Program ε σ α}
    {next : α → Program ε σ β} {state : σ} (first : Leaves holds (body.run state))
    (kept : ∀ value after, holds after → Leaves holds ((next value).run after)) :
    Leaves holds ((body >>= next).run state) := by
  rw [EStateM.run_bind]
  cases ran : body.run state with
  | ok value after =>
      rw [ran] at first
      exact kept value after first
  | error failure after =>
      rw [ran] at first
      cases failure <;> exact first

/-! ### The `except` clause -/

section

variable {catches : ε → Bool} {body : Program ε σ α} {state after : σ}

theorem run_tryExcept (catches : ε → Bool) (body : Program ε σ α) (state : σ) :
    (body.tryExcept catches).run state =
      match body.run state with
      | .ok value after => .ok (some value) after
      | .error (.raised exception) after =>
          if catches exception then .ok none after else .error (.raised exception) after
      | .error .killed after => .error .killed after := rfl

theorem tryExcept_ok {value : α} (ran : body.run state = .ok value after) :
    (body.tryExcept catches).run state = .ok (some value) after := by
  rw [run_tryExcept, ran]

theorem tryExcept_raised {exception : ε} (ran : body.run state = .error (.raised exception) after) :
    (body.tryExcept catches).run state =
      if catches exception then .ok none after else .error (.raised exception) after := by
  rw [run_tryExcept, ran]

theorem tryExcept_killed (ran : body.run state = .error .killed after) :
    (body.tryExcept catches).run state = .error .killed after := by
  rw [run_tryExcept, ran]

theorem leaves_tryExcept {holds : σ → Prop} (first : Leaves holds (body.run state)) :
    Leaves holds ((body.tryExcept catches).run state) := by
  rw [run_tryExcept]
  cases ran : body.run state with
  | ok value after =>
      rw [ran] at first
      exact first
  | error failure after =>
      rw [ran] at first
      cases failure with
      | raised exception =>
          dsimp only
          split <;> exact first
      | killed => trivial

end

/-! ### The `finally` clause -/

section

variable {body : Program ε σ α} {cleanup : Program ε σ Unit} {state after : σ}

theorem run_andFinally (body : Program ε σ α) (cleanup : Program ε σ Unit) (state : σ) :
    (body.andFinally cleanup).run state =
      match body.run state with
      | .ok value after => (do cleanup; return value : Program ε σ α).run after
      | .error (.raised exception) after =>
          (do cleanup; throw (Exit.raised exception) : Program ε σ α).run after
      | .error .killed after => .error .killed after := rfl

theorem andFinally_ok {value : α} {final : σ} (ran : body.run state = .ok value after)
    (cleaned : cleanup.run after = .ok () final) :
    (body.andFinally cleanup).run state = .ok value final := by
  rw [run_andFinally, ran]
  dsimp only
  rw [EStateM.run_bind, cleaned]
  rfl

theorem andFinally_raised {exception : ε} {final : σ}
    (ran : body.run state = .error (.raised exception) after)
    (cleaned : cleanup.run after = .ok () final) :
    (body.andFinally cleanup).run state = .error (.raised exception) final := by
  rw [run_andFinally, ran]
  dsimp only
  rw [EStateM.run_bind, cleaned]
  rfl

theorem andFinally_killed (ran : body.run state = .error .killed after) :
    (body.andFinally cleanup).run state = .error .killed after := by
  rw [run_andFinally, ran]

theorem andFinally_exit_of_ok {value : α} {exit : Exit ε} {final : σ}
    (ran : body.run state = .ok value after) (cleaned : cleanup.run after = .error exit final) :
    (body.andFinally cleanup).run state = .error exit final := by
  rw [run_andFinally, ran]
  dsimp only
  rw [EStateM.run_bind, cleaned]

theorem andFinally_exit_of_raised {exception : ε} {exit : Exit ε} {final : σ}
    (ran : body.run state = .error (.raised exception) after)
    (cleaned : cleanup.run after = .error exit final) :
    (body.andFinally cleanup).run state = .error exit final := by
  rw [run_andFinally, ran]
  dsimp only
  rw [EStateM.run_bind, cleaned]

/-- What the clause brings about holds however the body ended. -/
theorem leaves_andFinally {holds : σ → Prop}
    (cleaned : Leaves (fun after => Leaves holds (cleanup.run after)) (body.run state)) :
    Leaves holds ((body.andFinally cleanup).run state) := by
  rw [run_andFinally]
  cases ran : body.run state with
  | ok value after =>
      rw [ran] at cleaned
      exact leaves_bind cleaned (fun _ _ still => still)
  | error failure after =>
      rw [ran] at cleaned
      cases failure with
      | raised exception => exact leaves_bind cleaned (fun _ _ still => still)
      | killed => trivial

end

end Program

end Library
