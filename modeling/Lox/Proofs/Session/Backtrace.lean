import Lox.Proofs.Machine.Frames
import Lox.Proofs.Session.Verdict

/-!
# Backtraces

When a session executes a program, the frames of its machine are the active calls at every moment of
the execution, and the fault that is reported in the end tells which calls were active where it was
raised.
-/

namespace Lox.Session

open Stateful

/-- The fault that is reported after an execution: the one with which it failed, or an overflow if
there was no room left for nesting any deeper. -/
theorem errors_execute (settings : Settings) (steps : Nat) (echo : Bool) (statements : List Stmt)
    (session : Session) :
    ∃ reported, (session.execute settings steps echo statements).2.reporter.errors.toList =
        session.reporter.errors.toList ++ reported ∧
      ∀ d ∈ reported, ∃ halt after,
        Eval.program (session.traced settings) steps echo statements session.machine =
          .error halt after ∧ (halt = .failed d ∨ halt = .exhausted ∧ d = .overflow) := by
  rw [execute_snd]
  cases Eval.program (session.traced settings) steps echo statements session.machine with
  | ok _ m => exact ⟨[], (List.append_nil _).symm, nofun⟩
  | error halt m =>
    cases halt with
    | failed d =>
      refine ⟨[d], errors_reportAll _ _, fun d' hd' ↦ ⟨_, m, rfl, .inl ?_⟩⟩
      rw [List.mem_singleton.mp hd']
    | exhausted =>
      refine ⟨[.overflow], errors_reportAll _ _, fun d' hd' ↦ ⟨_, m, rfl, .inr ⟨rfl, ?_⟩⟩⟩
      exact List.mem_singleton.mp hd'
    | returned | faulted | unfinished => exact ⟨[], (List.append_nil _).symm, nofun⟩

/-- Frames and backtraces.  Between runs no call is active.  An execution ends as it does when it is
recorded, and at every moment that is recorded the frames are exactly the active calls, of which there
are never more than may be.  A fault that is reported in the end is the only one that was raised, and
has as its backtrace the calls that were active then, the innermost first, unless no level was left.
A call for which no room is left fails without executing anything of what is called; any other is the
application of the function with one more frame, which is taken away again. -/
theorem frames_are_active_calls (settings : Settings) :
    (∀ flags echoErrors coloured history,
      ((Session.new flags echoErrors coloured).takeAll settings history).machine.AtRest) ∧
    (∀ (session : Session) (steps : Nat) (echo : Bool) (statements : List Stmt),
      session.machine.AtRest →
      let course :=
        Course.program (session.traced settings) steps echo statements (.start session.machine)
      Course.ended course =
        Eval.program (session.traced settings) steps echo statements session.machine ∧
      (∀ moment ∈ (final course).moments,
        moment.machine.frames.toList = (active moment.path).reverse ∧
          moment.machine.frames.size ≤ settings.calls) ∧
      ∃ reported, (session.execute settings steps echo statements).2.reporter.errors.toList =
          session.reporter.errors.toList ++ reported ∧
        ∀ d ∈ reported,
          (∃ moment fault, (final course).faults = [(moment, fault)] ∧
            moment ∈ (final course).moments ∧ d = fault.during (active moment.path)) ∨
          ∃ after, course = .error .exhausted after ∧ d = .overflow) ∧
    ∀ (steps levels : Nat) (f : Value) (name : String) (paren : Token) (vs : List Value)
      (m : Machine), f.callable? = some (name, vs.length) →
      (settings.calls ≤ m.frames.size →
        Eval.call settings (steps + 1) levels f paren vs m =
          .error (.failed (.atToken .overflow paren "Stack overflow.")) m) ∧
      (m.frames.size < settings.calls →
        ∃ before : Machine, before.frames = m.frames.push ⟨name, paren.line⟩ ∧
          before.scopes = m.scopes ∧ before.current = m.current ∧
          (∀ v after, Eval.apply settings steps levels f vs before = .ok v after →
            Eval.call settings (steps + 1) levels f paren vs m =
              .ok v { after with frames := m.frames }) ∧
          ∀ halt after, Eval.apply settings steps levels f vs before = .error halt after →
            Eval.call settings (steps + 1) levels f paren vs m =
              .error (Eval.located before.frames halt) { after with frames := m.frames }) := by
  refine ⟨fun flags echoErrors coloured history ↦ takeAll_atRest settings ⟨rfl, rfl⟩ history, ?_,
    fun steps levels f name paren vs m hcallable ↦ ⟨?_, ?_⟩⟩
  · intro session steps echo statements hrest course
    refine ⟨?_, ?_, ?_⟩
    · exact Coupling.program_ended (session.traced settings) steps echo statements session.machine
    · exact fun moment ↦
        Framing.frames_of_mem (session.traced settings) steps echo statements hrest.2
    · obtain ⟨reported, herrors, hreported⟩ :=
        session.errors_execute settings steps echo statements
      refine ⟨reported, herrors, fun d hd ↦ ?_⟩
      obtain ⟨halt, after, hprogram, hhalt⟩ := hreported d hd
      have hended := hprogram
      rw [← Coupling.program_ended] at hended
      cases hcourse : course with
      | ok a record =>
        rw [show Course.program _ _ _ _ _ = _ from hcourse] at hended
        cases hended
      | error halt' record =>
        rw [show Course.program _ _ _ _ _ = _ from hcourse] at hended
        obtain ⟨rfl, -⟩ := EStateM.Result.error.inj hended
        rcases hhalt with rfl | ⟨rfl, rfl⟩
        · obtain ⟨moment, fault, hfaults, hmem, -, hduring⟩ :=
            Framing.failed_during (session.traced settings) steps echo statements hrest.2 hcourse
          exact .inl ⟨moment, fault, hfaults, hmem, hduring⟩
        · exact .inr ⟨record, rfl, rfl⟩
  · exact Eval.call_full hcallable steps levels paren
  · exact Eval.call_made hcallable steps levels paren

/-- `g` fails in the argument of a call that `f` is about to make, so that `g` and `f` are active,
but neither the call nor that of `clock`, which is over.  And a function is called where there is
room for two calls, once while two are active and once while one is. -/
theorem failing_argument_traced :
    let session := Session.new [] false false
    let statements := treesOf 60
      "fun g()\x7breturn clock()+nil;\x7d\nfun f(h)\x7bh(g());\x7d\nf(clock);"
    let course :=
      Course.program (session.traced {}) 40 false statements (.start session.machine)
    let paren : Token := ⟨.rightParen, ")", .nil, 1, 0⟩
    let full : Machine := { Machine.fresh {} 0 with frames := #[⟨"f", 1⟩, ⟨"g", 2⟩] }
    let free : Machine := { Machine.fresh {} 0 with frames := #[⟨"f", 1⟩] }
    session.machine.AtRest ∧ (session.traced {}).calls = 2048 ∧
      (∃ d, (session.execute {} 40 false statements).2.reporter.errors.toList = [d] ∧
        d.backtrace = some [⟨"g", 2⟩, ⟨"f", 3⟩] ∧
        ∃ moment fault, (final course).faults = [(moment, fault)] ∧
          d = fault.during (active moment.path)) ∧
      Eval.call { calls := 2 } 5 9 (.native .clock) paren [] full =
        .error (.failed (.atToken .overflow paren "Stack overflow.")) full ∧
      ∃ before : Machine, before.frames = #[⟨"f", 1⟩, ⟨"clock", 1⟩] ∧
        ∀ v after, Eval.apply { calls := 2 } 4 9 (.native .clock) [] before = .ok v after →
          Eval.call { calls := 2 } 5 9 (.native .clock) paren [] free =
            .ok v { after with frames := #[⟨"f", 1⟩] } := by
  intro session statements course paren full free
  have hbacktraces : (session.execute {} 40 false statements).2.reporter.errors.toList.map
      Diagnostic.backtrace = [some [⟨"g", 2⟩, ⟨"f", 3⟩]] := by
    decide +kernel
  have hrest : session.machine.AtRest := ⟨rfl, rfl⟩
  have hclock : (Value.native .clock).callable? = some ("clock", ([] : List Value).length) := rfl
  obtain ⟨d, herrors, hd⟩ := List.map_eq_singleton_iff.mp hbacktraces
  obtain ⟨-, hruns, -⟩ := frames_are_active_calls {}
  obtain ⟨-, -, hcalls⟩ := frames_are_active_calls { calls := 2 }
  obtain ⟨-, -, reported, hreported, horigin⟩ := hruns session 40 false statements hrest
  have hmem : d ∈ reported := by
    have hreported' : [d] = reported := herrors.symm.trans hreported
    rw [← hreported']
    exact List.mem_singleton_self d
  obtain ⟨before, hbefore, -, -, hmade, -⟩ :=
    (hcalls 4 9 _ "clock" paren [] free hclock).2 (by decide)
  refine ⟨hrest, rfl, ⟨d, herrors, hd, ?_⟩,
    (hcalls 4 9 _ "clock" paren [] full hclock).1 (by decide), before, hbefore, hmade⟩
  rcases horigin d hmem with ⟨moment, fault, hfaults, -, hduring⟩ | ⟨_, _, rfl⟩
  · exact ⟨moment, fault, hfaults, hduring⟩
  · cases hd

end Lox.Session
