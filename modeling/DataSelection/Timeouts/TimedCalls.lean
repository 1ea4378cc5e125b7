/-
Calls with a time limit.

The handler of the alarm signal and the pending alarm belong to the process.  The handler is
put back in a `finally` clause, the alarm is cancelled behind it, where only a return arrives.
-/

import DataSelection.Library.Exits

namespace Timeouts

open Library

inductive Exception
  | TimeoutException
  | other (name : Nat)
  deriving DecidableEq

inductive Handler
  | timeoutHandler
  | SIG_DFL
  | SIG_IGN
  /-- Another function, with the exception that it raises, if any. -/
  | function (name : Nat) (raises : Option Exception)
  deriving DecidableEq

/-- How the running statement is left; `none` when it goes on. -/
def Handler.reaction : Handler → Option (Exit Exception)
  | .timeoutHandler => some (.raised .TimeoutException)
  | .SIG_DFL => some .killed
  | .SIG_IGN => none
  | .function _ raises => raises.map .raised

/-- The part of the state of the process that the calls share. -/
structure Signals where
  handler : Handler
  /-- Whether an alarm is pending. -/
  alarm : Bool
  deriving DecidableEq

abbrev Code (α : Type) := Program Exception Signals α

/-- `signal.signal(signal.SIGALRM, handler)`. -/
def signal (handler : Handler) : Code Handler := fun signals =>
  .ok signals.handler { signals with handler := handler }

/-- `signal.alarm(seconds)`, which replaces a pending alarm. -/
def alarm (seconds : Int) : Code Unit := fun signals =>
  .ok () { signals with alarm := decide (seconds ≠ 0) }

def goOff : Code Unit := fun signals =>
  match signals.handler.reaction with
  | none => .ok () { signals with alarm := false }
  | some exit => .error exit { signals with alarm := false }

/-- A place between two statements, where a pending alarm may go off. -/
def interrupt (now : Bool) : Code Unit := fun signals =>
  if now && signals.alarm then goOff signals else .ok () signals

/-- The places of a call at which a pending alarm goes off. -/
structure Moments where
  beforeAlarm : Bool
  beforeTry : Bool
  beforeReset : Bool
  afterReset : Bool

def timeoutIn (moments : Moments) (seconds : Int) : Code Handler := do
  let old_handler ← signal .timeoutHandler
  interrupt moments.beforeAlarm
  alarm seconds
  return old_handler

def cancelTimeout : Code Unit := alarm 0

def resetTimeoutHandler (handler : Handler) : Code Unit := do
  let _ ← signal handler

def restore (moments : Moments) (old_handler : Handler) : Code Unit := do
  interrupt moments.beforeReset
  resetTimeoutHandler old_handler
  interrupt moments.afterReset

/-- The call of `f` in its `try` statement, and what follows.  An alarm that goes off inside
the statement goes off in `f`. -/
def guarded {α : Type} (moments : Moments) (old_handler : Handler) (default : α) (f : Code α) :
    Code α := do
  let return_value ← (f.tryExcept (· = .TimeoutException)).andFinally (restore moments old_handler)
  match return_value with
  -- the `except` clause has returned from the function
  | none => return default
  | some value => do
      cancelTimeout
      return value

/-- The function that the decorator makes of `f`, applied to arguments. -/
def f2 {α : Type} (moments : Moments) (time : Int) (default : α) (f : Code α) : Code α := do
  let old_handler ← timeoutIn moments time
  interrupt moments.beforeTry
  guarded moments old_handler default f

/-- The handler of before is installed, and no alarm is pending. -/
def LeavesNoTimer {α : Type} (before : Signals)
    (result : EStateM.Result (Exit Exception) Signals α) : Prop :=
  Program.Leaves (fun after => after.handler = before.handler ∧ after.alarm = false) result

/-- The alarm goes off before the wrapped function is called. -/
def InterruptedBefore (moments : Moments) (time : Int) (before : Signals) : Prop :=
  moments.beforeAlarm = true ∧ before.alarm = true ∨ moments.beforeTry = true ∧ time ≠ 0

/-- The alarm raises an exception in the `finally` clause, before the handler is put back. -/
def InterruptedReset (moments : Moments) (after : Signals) : Prop :=
  moments.beforeReset = true ∧ after.alarm = true ∧
    ∃ exception, after.handler.reaction = some (.raised exception)

def armed (time : Int) : Signals := { handler := .timeoutHandler, alarm := decide (time ≠ 0) }

/-- How the wrapped function may end so that the call leaves no timer behind. -/
def EndsCalmly {α : Type} (moments : Moments) (before : Signals) :
    EStateM.Result (Exit Exception) Signals α → Prop
  | .ok _ after => InterruptedReset moments after → after.handler = before.handler
  | .error (.raised _) after =>
      (InterruptedReset moments after → after.handler = before.handler) ∧
      (after.alarm = true → moments.beforeReset = true ∨ moments.afterReset = true)
  | .error .killed _ => True

/-! ### Statements -/

theorem interrupt_quiet {now : Bool} {signals : Signals}
    (quiet : now = true → signals.alarm = false) :
    (interrupt now).run signals = .ok () signals := by
  have notNow : (now && signals.alarm) = false := by
    cases now with
    | false => rfl
    | true => exact quiet rfl
  simp only [EStateM.run, interrupt, notNow, Bool.false_eq_true, if_false]

theorem interrupt_goesOff {now : Bool} {signals : Signals} (isNow : now = true)
    (pending : signals.alarm = true) : (interrupt now).run signals = goOff.run signals := by
  simp only [EStateM.run, interrupt, isNow, pending, Bool.and_self, if_true]

theorem goOff_exit {signals : Signals} {exit : Exit Exception}
    (reacts : signals.handler.reaction = some exit) :
    goOff.run signals = .error exit { signals with alarm := false } := by
  simp only [EStateM.run, goOff, reacts]

theorem goOff_on {signals : Signals} (reacts : signals.handler.reaction = none) :
    goOff.run signals = .ok () { signals with alarm := false } := by
  simp only [EStateM.run, goOff, reacts]

theorem leaves_goOff (signals : Signals) :
    Program.Leaves (fun after => after.handler = signals.handler ∧ after.alarm = false)
      (goOff.run signals) := by
  cases reacts : signals.handler.reaction with
  | none =>
      rw [goOff_on reacts]
      exact ⟨rfl, rfl⟩
  | some exit =>
      rw [goOff_exit reacts]
      cases exit with
      | raised exception => exact ⟨rfl, rfl⟩
      | killed => trivial

theorem leaves_interrupt {now : Bool} {signals : Signals} {handler : Handler}
    (same : signals.handler = handler) (settled : signals.alarm = true → now = true) :
    Program.Leaves (fun after => after.handler = handler ∧ after.alarm = false)
      ((interrupt now).run signals) := by
  subst same
  by_cases pending : signals.alarm = true
  · rw [interrupt_goesOff (settled pending) pending]
    exact leaves_goOff signals
  · have quiet : signals.alarm = false := by simpa using pending
    rw [interrupt_quiet (fun _ => quiet)]
    exact ⟨rfl, quiet⟩

theorem run_signal (handler : Handler) (signals : Signals) :
    (signal handler).run signals =
      .ok signals.handler { signals with handler := handler } := rfl

theorem run_resetTimeoutHandler (handler : Handler) (signals : Signals) :
    (resetTimeoutHandler handler).run signals = .ok () { signals with handler := handler } := rfl

/-! ### The `finally` clause -/

section

variable {moments : Moments} {old_handler : Handler} {after : Signals}

theorem restore_interrupted (interrupted : InterruptedReset moments after) :
    ∃ exception, (restore moments old_handler).run after =
      .error (.raised exception) { after with alarm := false } := by
  rcases interrupted with ⟨isNow, pending, exception, reacts⟩
  refine ⟨exception, ?_⟩
  rw [restore, EStateM.run_bind, interrupt_goesOff isNow pending, goOff_exit reacts]

theorem restore_quiet (quiet : after.alarm = true →
    moments.beforeReset = false ∧ moments.afterReset = false) :
    (restore moments old_handler).run after =
      .ok () { handler := old_handler, alarm := after.alarm } := by
  have first : moments.beforeReset = true → after.alarm = false := by
    intro isNow
    apply Bool.of_not_eq_true
    intro pending
    rw [(quiet pending).1] at isNow
    cases isNow
  have second : moments.afterReset = true → after.alarm = false := by
    intro isNow
    apply Bool.of_not_eq_true
    intro pending
    rw [(quiet pending).2] at isNow
    cases isNow
  rw [restore, EStateM.run_bind, interrupt_quiet first]
  dsimp only
  rw [EStateM.run_bind, run_resetTimeoutHandler]
  exact interrupt_quiet second

theorem leaves_restore (calm : ¬ InterruptedReset moments after)
    (settled : after.alarm = true → moments.beforeReset = true ∨ moments.afterReset = true) :
    Program.Leaves (fun final => final.handler = old_handler ∧ final.alarm = false)
      ((restore moments old_handler).run after) := by
  rw [restore, EStateM.run_bind]
  by_cases first : moments.beforeReset = true ∧ after.alarm = true
  · rw [interrupt_goesOff first.1 first.2]
    cases reacts : after.handler.reaction with
    | none =>
        rw [goOff_on reacts]
        dsimp only
        rw [EStateM.run_bind, run_resetTimeoutHandler]
        exact leaves_interrupt rfl (fun pending => absurd pending Bool.false_ne_true)
    | some exit =>
        cases exit with
        | raised exception => exact absurd ⟨first.1, first.2, exception, reacts⟩ calm
        | killed =>
            rw [goOff_exit reacts]
            trivial
  · have quiet : moments.beforeReset = true → after.alarm = false := by
      intro isNow
      exact Bool.of_not_eq_true (fun pending => first ⟨isNow, pending⟩)
    rw [interrupt_quiet quiet]
    dsimp only
    rw [EStateM.run_bind, run_resetTimeoutHandler]
    refine leaves_interrupt rfl ?_
    intro pending
    rcases settled pending with atFirst | atSecond
    · exact absurd ⟨atFirst, pending⟩ first
    · exact atSecond

end

/-! ### The call -/

section

variable {α : Type} {moments : Moments} {old_handler : Handler} {default : α} {f : Code α}
  {signals after : Signals}

theorem leaves_guarded
    (cleaned : Program.Leaves (fun after =>
      Program.Leaves (fun final => final.handler = old_handler ∧ final.alarm = false)
        ((restore moments old_handler).run after)) (f.run signals)) :
    Program.Leaves (fun final => final.handler = old_handler ∧ final.alarm = false)
      ((guarded moments old_handler default f).run signals) := by
  unfold guarded
  apply Program.leaves_bind
  · exact Program.leaves_andFinally (Program.leaves_tryExcept cleaned)
  · intro return_value final holds
    cases return_value with
    | none => exact holds
    | some value => exact ⟨holds.1, rfl⟩

theorem guarded_killed (ran : f.run signals = .error .killed after) :
    (guarded moments old_handler default f).run signals = .error .killed after := by
  rw [guarded, EStateM.run_bind, Program.andFinally_killed (Program.tryExcept_killed ran)]

theorem guarded_interrupted (interrupted : InterruptedReset moments after)
    (ended : (∃ value, f.run signals = .ok value after) ∨
      ∃ exception, f.run signals = .error (.raised exception) after) :
    ∃ exception, (guarded moments old_handler default f).run signals =
      .error (.raised exception) { after with alarm := false } := by
  rcases @restore_interrupted moments old_handler after interrupted with ⟨exception, left⟩
  refine ⟨exception, ?_⟩
  rw [guarded, EStateM.run_bind]
  rcases ended with ⟨value, ran⟩ | ⟨first, ran⟩
  · rw [Program.andFinally_exit_of_ok (Program.tryExcept_ok ran) left]
  · have caught := @Program.tryExcept_raised _ _ _ (· = .TimeoutException) _ _ _ _ ran
    by_cases timedOut : first = .TimeoutException
    · rw [if_pos (decide_eq_true timedOut)] at caught
      rw [Program.andFinally_exit_of_ok caught left]
    · rw [if_neg (by simpa using timedOut)] at caught
      rw [Program.andFinally_exit_of_raised caught left]

theorem guarded_returned {value : α} (ran : f.run signals = .ok value after)
    (quiet : after.alarm = true → moments.beforeReset = false ∧ moments.afterReset = false) :
    (guarded moments old_handler default f).run signals =
      .ok value { handler := old_handler, alarm := false } := by
  rw [guarded, EStateM.run_bind,
    Program.andFinally_ok (Program.tryExcept_ok ran) (restore_quiet quiet)]
  rfl

theorem guarded_raised {exception : Exception}
    (ran : f.run signals = .error (.raised exception) after)
    (quiet : after.alarm = true → moments.beforeReset = false ∧ moments.afterReset = false) :
    (guarded moments old_handler default f).run signals =
      if exception = .TimeoutException then
        .ok default { handler := old_handler, alarm := after.alarm }
      else .error (.raised exception) { handler := old_handler, alarm := after.alarm } := by
  have caught := @Program.tryExcept_raised _ _ _ (· = .TimeoutException) _ _ _ _ ran
  rw [guarded, EStateM.run_bind]
  by_cases timedOut : exception = .TimeoutException
  · rw [if_pos (decide_eq_true timedOut)] at caught
    rw [if_pos timedOut, Program.andFinally_ok caught (restore_quiet quiet)]
    rfl
  · rw [if_neg (by simpa using timedOut)] at caught
    rw [if_neg timedOut, Program.andFinally_raised caught (restore_quiet quiet)]

theorem interrupted_leavesNoTimer_iff {before : Signals}
    (interrupted : InterruptedReset moments after)
    (ended : (∃ value, f.run signals = .ok value after) ∨
      ∃ exception, f.run signals = .error (.raised exception) after) :
    LeavesNoTimer before ((guarded moments old_handler default f).run signals) ↔
      after.handler = before.handler := by
  rcases @guarded_interrupted α moments old_handler default f signals after interrupted ended
    with ⟨exception, ran⟩
  rw [ran]
  exact ⟨fun leaves => leaves.1, fun same => ⟨same, rfl⟩⟩

theorem settled_or_quiet (moments : Moments) (after : Signals) :
    (after.alarm = true → moments.beforeReset = true ∨ moments.afterReset = true) ∨
      after.alarm = true ∧ moments.beforeReset = false ∧ moments.afterReset = false := by
  cases after.alarm <;> cases moments.beforeReset <;> cases moments.afterReset <;> simp

theorem returned_leavesNoTimer_iff (before : Signals) {value : α}
    (ran : f.run signals = .ok value after) :
    LeavesNoTimer before ((guarded moments before.handler default f).run signals) ↔
      (InterruptedReset moments after → after.handler = before.handler) := by
  by_cases interrupted : InterruptedReset moments after
  · rw [interrupted_leavesNoTimer_iff interrupted (.inl ⟨value, ran⟩)]
    exact ⟨fun same _ => same, fun calm => calm interrupted⟩
  · refine iff_of_true ?_ (fun isInterrupted => absurd isInterrupted interrupted)
    rcases settled_or_quiet moments after with settled | quiet
    · apply leaves_guarded
      rw [ran]
      exact leaves_restore interrupted settled
    · rw [guarded_returned ran (fun _ => quiet.2)]
      exact ⟨rfl, rfl⟩

/-- An alarm that stays quiet in the clause is still pending behind an exception. -/
theorem not_leavesNoTimer_of_quiet (before : Signals) {exception : Exception}
    (ran : f.run signals = .error (.raised exception) after) (pending : after.alarm = true)
    (quiet : moments.beforeReset = false ∧ moments.afterReset = false) :
    ¬ LeavesNoTimer before ((guarded moments before.handler default f).run signals) := by
  rw [guarded_raised ran (fun _ => quiet), pending]
  intro leaves
  by_cases timedOut : exception = .TimeoutException
  · rw [if_pos timedOut] at leaves
    cases leaves.2
  · rw [if_neg timedOut] at leaves
    cases leaves.2

theorem raised_leavesNoTimer_iff (before : Signals) {exception : Exception}
    (ran : f.run signals = .error (.raised exception) after) :
    LeavesNoTimer before ((guarded moments before.handler default f).run signals) ↔
      (InterruptedReset moments after → after.handler = before.handler) ∧
      (after.alarm = true → moments.beforeReset = true ∨ moments.afterReset = true) := by
  by_cases interrupted : InterruptedReset moments after
  · rw [interrupted_leavesNoTimer_iff interrupted (.inr ⟨exception, ran⟩)]
    exact ⟨fun same => ⟨fun _ => same, fun _ => .inl interrupted.1⟩,
      fun calm => calm.1 interrupted⟩
  · rcases settled_or_quiet moments after with settled | quiet
    · refine iff_of_true ?_ ⟨fun isInterrupted => absurd isInterrupted interrupted, settled⟩
      apply leaves_guarded
      rw [ran]
      exact leaves_restore interrupted settled
    · refine iff_of_false (not_leavesNoTimer_of_quiet before ran quiet.1 quiet.2) ?_
      intro calm
      have settled := calm.2 quiet.1
      rw [quiet.2.1, quiet.2.2] at settled
      rcases settled with isNow | isNow
      · cases isNow
      · cases isNow

theorem guarded_leavesNoTimer_iff (before : Signals) :
    LeavesNoTimer before ((guarded moments before.handler default f).run signals) ↔
      EndsCalmly moments before (f.run signals) := by
  cases ran : f.run signals with
  | ok value after => exact returned_leavesNoTimer_iff before ran
  | error failure after =>
      cases failure with
      | killed =>
          rw [guarded_killed ran]
          exact Iff.rfl
      | raised exception => exact raised_leavesNoTimer_iff before ran

end

section

variable {α : Type} {moments : Moments} {time : Int} {default : α} {f : Code α} {before : Signals}

theorem timeoutIn_interrupted (isNow : moments.beforeAlarm = true)
    (pending : before.alarm = true) :
    (timeoutIn moments time).run before =
      .error (.raised .TimeoutException) { handler := .timeoutHandler, alarm := false } := by
  have installed : ({ before with handler := .timeoutHandler } : Signals).alarm = true := pending
  rw [timeoutIn, EStateM.run_bind, run_signal]
  dsimp only
  rw [EStateM.run_bind, interrupt_goesOff isNow installed, goOff_exit rfl]

theorem timeoutIn_quiet (quiet : moments.beforeAlarm = true → before.alarm = false) :
    (timeoutIn moments time).run before = .ok before.handler (armed time) := by
  have installed : moments.beforeAlarm = true →
      ({ before with handler := .timeoutHandler } : Signals).alarm = false := quiet
  rw [timeoutIn, EStateM.run_bind, run_signal]
  dsimp only
  rw [EStateM.run_bind, interrupt_quiet installed]
  rfl

/-- An alarm in front of the `try` statement leaves the new handler installed. -/
theorem f2_interrupted (interrupted : InterruptedBefore moments time before) :
    (f2 moments time default f).run before =
      .error (.raised .TimeoutException) { handler := .timeoutHandler, alarm := false } := by
  rw [f2, EStateM.run_bind]
  by_cases atOnce : moments.beforeAlarm = true ∧ before.alarm = true
  · rw [timeoutIn_interrupted atOnce.1 atOnce.2]
  · rcases interrupted with first | ⟨isNow, timed⟩
    · exact absurd first atOnce
    · have pending : (armed time).alarm = true := decide_eq_true timed
      rw [timeoutIn_quiet (fun isNow =>
        Bool.of_not_eq_true (fun pending => atOnce ⟨isNow, pending⟩))]
      dsimp only
      rw [EStateM.run_bind, interrupt_goesOff isNow pending, goOff_exit rfl]
      rfl

theorem f2_started (calm : ¬ InterruptedBefore moments time before) :
    (f2 moments time default f).run before =
      (guarded moments before.handler default f).run (armed time) := by
  have first : moments.beforeAlarm = true → before.alarm = false :=
    fun isNow => Bool.of_not_eq_true (fun pending => calm (.inl ⟨isNow, pending⟩))
  have second : moments.beforeTry = true → (armed time).alarm = false := by
    intro isNow
    exact decide_eq_false (fun timed => calm (.inr ⟨isNow, timed⟩))
  rw [f2, EStateM.run_bind, timeoutIn_quiet first]
  dsimp only
  rw [EStateM.run_bind, interrupt_quiet second]

/-- A timed call leaves no timer behind exactly when no alarm goes off in front of its `try`
statement, unless its handler was already installed, and the wrapped function ends calmly. -/
theorem f2_leavesNoTimer_iff (moments : Moments) (time : Int) (default : α) (f : Code α)
    (before : Signals) :
    LeavesNoTimer before ((f2 moments time default f).run before) ↔
      (InterruptedBefore moments time before → before.handler = .timeoutHandler) ∧
      (¬ InterruptedBefore moments time before →
        EndsCalmly moments before (f.run (armed time))) := by
  by_cases interrupted : InterruptedBefore moments time before
  · rw [f2_interrupted interrupted]
    exact ⟨fun leaves => ⟨fun _ => leaves.1.symm, fun calm => absurd interrupted calm⟩,
      fun conditions => ⟨(conditions.1 interrupted).symm, rfl⟩⟩
  · rw [f2_started interrupted, guarded_leavesNoTimer_iff]
    exact ⟨fun calm => ⟨fun isInterrupted => absurd isInterrupted interrupted, fun _ => calm⟩,
      fun conditions => conditions.2 interrupted⟩

end

/-! ### Nested calls -/

def Moments.quiet : Moments :=
  { beforeAlarm := false
    beforeTry := false
    beforeReset := false
    afterReset := false }

/-- Timed calls inside one another, the outermost one first. -/
def nested {α : Type} (default : α) (f : Code α) : List Int → Code α
  | [] => f
  | time :: times => f2 .quiet time default (nested default f times)

section

variable {α : Type} {default : α} {f : Code α}

theorem f2_quiet (time : Int) (before : Signals) :
    (f2 .quiet time default f).run before =
      (guarded .quiet before.handler default f).run (armed time) := by
  apply f2_started
  rintro (⟨isNow, _⟩ | ⟨isNow, _⟩)
  · cases isNow
  · cases isNow

/-- A function that returns leaves no timer, however deep the calls are nested. -/
theorem nested_returned {value : α} (returns : ∀ signals, ∃ after, f.run signals = .ok value after)
    (time : Int) (times : List Int) (before : Signals) :
    (nested default f (time :: times)).run before =
      .ok value { handler := before.handler, alarm := false } := by
  induction times generalizing time before with
  | nil =>
      rcases returns (armed time) with ⟨after, ran⟩
      rw [nested, nested, f2_quiet, guarded_returned ran (fun _ => ⟨rfl, rfl⟩)]
  | cons inner times ih =>
      rw [nested, f2_quiet, guarded_returned (ih inner (armed time)) (fun _ => ⟨rfl, rfl⟩)]

/-- An exception leaves the alarm of the innermost call pending behind the outermost one. -/
theorem nested_raised {name : Nat}
    (raises : ∀ signals, f.run signals = .error (.raised (.other name)) signals)
    (times : List Int) (innermost : Int) (before : Signals) :
    (nested default f (times ++ [innermost])).run before =
      .error (.raised (.other name))
        { handler := before.handler, alarm := decide (innermost ≠ 0) } := by
  have uncaught : ¬ Exception.other name = .TimeoutException := by
    intro same
    cases same
  induction times generalizing before with
  | nil =>
      rw [List.nil_append, nested, nested, f2_quiet,
        guarded_raised (raises (armed innermost)) (fun _ => ⟨rfl, rfl⟩), if_neg uncaught]
      rfl
  | cons time times ih =>
      rw [List.cons_append, nested, f2_quiet,
        guarded_raised (ih (armed time)) (fun _ => ⟨rfl, rfl⟩), if_neg uncaught]

end

/-- The exception of a function with a limit of five seconds leaves the alarm behind, and the
handler that is in force by then lets it kill the process. -/
theorem exception_leavesAlarm :
    let before : Signals := { handler := .SIG_DFL, alarm := false }
    let after : Signals := { handler := .SIG_DFL, alarm := true }
    let call : Code Nat := f2 .quiet 5 0 (throw (Exit.raised (.other 0)))
    call.run before = .error (.raised (.other 0)) after ∧
      ¬ LeavesNoTimer before (call.run before) ∧
      goOff.run after = .error .killed { after with alarm := false } := by
  refine ⟨rfl, ?_, rfl⟩
  intro leaves
  cases leaves.2

end Timeouts
