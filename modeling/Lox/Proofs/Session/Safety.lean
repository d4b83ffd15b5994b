import Lox.Proofs.Machine.Safety
import Lox.Proofs.Session.Stages

/-!
# Runs that come to a verdict

Whatever was run before in a session and whatever text is run now, a run that comes to an end ends
with a verdict, unless trees are to be written that are too deep: no return leaves the program, and
nothing is met that execution does not know how to deal with.  The trees that a parser returns are
proper even after faults, the functions that earlier runs left behind have proper bodies, and
executing proper trees keeps it so.
-/

namespace Lox

open Stateful Lox.Parser

namespace Session

/-- What can be done with a session.  A run is given a number of steps. -/
inductive Step where
  | run (steps : Nat) (source : String) (echo : Bool)
  | setFlags (flags : Flags)
  | restart

def take (settings : Settings) (session : Session) : Step → Session
  | .run steps source echo => (session.run settings steps source echo).2
  | .setFlags flags => session.setFlags flags
  | .restart => session.restart

def takeAll (settings : Settings) (session : Session) (history : List Step) : Session :=
  history.foldl (take settings) session

/-- A run came to a verdict, unless it did not come to an end. -/
def Judged (result : Except Escape Verdict) : Prop :=
  (∃ verdict, result = .ok verdict) ∨ result = .error .unfinished

theorem not_judged_exhausted : ¬Judged (.error .exhausted) := by
  rintro (⟨_, hverdict⟩ | hunfinished)
  · cases hverdict
  · cases hunfinished

/-- What holds of a machine apart from its console still holds after something has been written. -/
theorem Watched.keeps {holds : Machine → Prop}
    (hconsole : ∀ m console, holds m → holds { m with console }) {before after : Session}
    (h : before.Watched after) (hbefore : holds before.machine) : holds after.machine := by
  rw [h.machine]
  exact hconsole _ _ hbefore

/-- Executions of proper programs end as they may, and what they come to is a verdict. -/
theorem concluded_sound (reporter : Reporter) {result : EStateM.Result Halt Machine Unit}
    (h : Ends Machine.Proper (fun _ ↦ True) (Halt.Proper false) result) :
    Judged (concluded reporter result).1 ∧ (concluded reporter result).2.machine.Proper := by
  cases result with
  | ok _ m => exact ⟨.inl ⟨_, rfl⟩, h.1⟩
  | error halt m =>
    cases halt with
    | returned value => cases h.2.1
    | faulted fault => cases h.2
    | failed d => exact ⟨.inl ⟨_, rfl⟩, h.1⟩
    | exhausted => exact ⟨.inl ⟨_, rfl⟩, h.1⟩
    | unfinished => exact ⟨.inr rfl, h.1⟩

/-- One run comes to a verdict, unless trees are too deep to be written, and leaves a proper
machine. -/
theorem run_sound (settings : Settings) (steps : Nat) (source : String) (echo : Bool)
    {session : Session} (h : session.machine.Proper) :
    (Judged (session.run settings steps source echo).1 ∨
      (session.run settings steps source echo).1 = .error .exhausted ∧
        session.TooDeepToDump settings source) ∧
      (session.run settings steps source echo).2.machine.Proper := by
  have hconsole (m : Machine) (console : Console) (hm : m.Proper) : { m with console }.Proper := hm
  have hreadied := (session.readied_watched settings source).keeps hconsole h
  have hproper := (parse_safe (hasEnd_scan (Text.joinReturns source)) settings.levels).1
  apply run_elim fun result ↦ (Judged result.1 ∨ result.1 = .error .exhausted ∧
    session.TooDeepToDump settings source) ∧ result.2.machine.Proper
  · exact fun _ ↦ ⟨.inl (.inl ⟨_, rfl⟩), (session.scanned_watched _).keeps hconsole h⟩
  · exact fun hdeep ↦ ⟨.inr ⟨rfl, hdeep⟩, hreadied⟩
  · exact fun _ _ ↦ ⟨.inl (.inl ⟨_, rfl⟩), hreadied⟩
  · intro _
    obtain ⟨hjudged, hafter⟩ := concluded_sound (session.readied settings source).reporter
      (Eval.program_proper (session.traced settings) steps echo hproper _ hreadied)
    exact ⟨.inl hjudged, hafter⟩

theorem take_proper (settings : Settings) {session : Session} (h : session.machine.Proper)
    (step : Step) : (session.take settings step).machine.Proper := by
  cases step with
  | run steps source echo => exact (run_sound settings steps source echo h).2
  | setFlags flags => exact h
  | restart => exact Machine.Proper.renewed h

theorem takeAll_proper (settings : Settings) {session : Session} (h : session.machine.Proper)
    (history : List Step) : (session.takeAll settings history).machine.Proper := by
  induction history generalizing session with
  | nil => exact h
  | cons step history ih => exact ih (take_proper settings h step)

/-- No fault that a program cannot be blamed for leaves a run, but for one: trees that are to be
written and are too deep for that end it without a verdict.  In every session each run that ends comes
to a verdict otherwise.  The reason is that the trees which are returned for tokens with a marked end
are proper, also after faults, and that a proper program on a proper machine ends with success, with
one fault of its own, or at a limit, and leaves the machine proper. -/
theorem judged_iff_not_tooDeepToDump (settings : Settings) :
    (∀ (flags : Flags) (echoErrors coloured : Bool) (history : List Step) (steps : Nat)
      (source : String) (echo : Bool),
      let session := (Session.new flags echoErrors coloured).takeAll settings history
      Judged (session.run settings steps source echo).1 ↔
        ¬session.TooDeepToDump settings source) ∧
    (∀ (levels : Nat) (tokens : List Token), HasEnd tokens →
      (∀ s ∈ (parse levels tokens).statements, Stmt.Proper false s) ∧
        (parse levels tokens).ranOut = false ∧ (parse levels tokens).pastEnd = false) ∧
    ∀ (steps : Nat) (echo : Bool) (statements : List Stmt) (machine : Machine),
      (∀ s ∈ statements, Stmt.Proper false s) → machine.Proper →
      Ends Machine.Proper (fun _ ↦ True) (Halt.Proper false)
        (Eval.program settings steps echo statements machine) := by
  refine ⟨?_, ?_, ?_⟩
  · intro flags echoErrors coloured history steps source echo session
    have hnew : (Session.new flags echoErrors coloured).machine.Proper := Machine.fresh_proper _ _
    have hproper : session.machine.Proper := takeAll_proper settings hnew history
    constructor
    · intro hjudged hdeep
      rw [run_undumped settings steps source echo hdeep] at hjudged
      exact not_judged_exhausted hjudged
    · intro hroom
      exact (run_sound settings steps source echo hproper).1.resolve_right fun h ↦ hroom h.2
  · intro levels tokens h
    exact ⟨(parse_safe h levels).1, ranOut_eq_false h levels, pastEnd_eq_false h levels⟩
  · intro steps echo statements machine hstatements hmachine
    exact Eval.program_proper settings steps echo hstatements machine hmachine

/-- After a run with a fault, a run with trace and a restart; a lone parenthesis with the mark of the
end; a function that returns, called on a new machine. -/
theorem returning_call_judged :
    let sign (kind : Kind) : Token := ⟨kind, kind.mark, .nil, 1, 0⟩
    let name : Token := ⟨.identifier, "f", .nil, 1, 0⟩
    let tokens := [sign .rightParen, sign .eof]
    let statements : List Stmt := [.function name [] [.ret (sign .kwReturn) none],
      .expression (.call (.var name) (sign .rightParen) [])]
    let history : List Step := [.run 9 "fun f() \x7b return 1; \x7d f(;" true, .setFlags [.trace],
      .run 9 "fun f() \x7b return g(); \x7d f();" false, .restart]
    let session := (Session.new [] true false).takeAll {} history
    ¬session.TooDeepToDump {} "f();" ∧ Judged (session.run {} 9 "f();" true).1 ∧
      HasEnd tokens ∧ (∀ s ∈ (parse 9 tokens).statements, Stmt.Proper false s) ∧
      (∀ s ∈ statements, Stmt.Proper false s) ∧ (Machine.fresh {} 0).Proper ∧
      Ends Machine.Proper (fun _ ↦ True) (Halt.Proper false)
        (Eval.program {} 9 false statements (.fresh {} 0)) := by
  intro sign name tokens statements history session
  have hroom : ¬session.TooDeepToDump {} "f();" := by
    intro hdeep
    have hflags : session.has .dumpTree = false := by decide +kernel
    rw [hdeep.dumps] at hflags
    cases hflags
  have hend : HasEnd tokens := ⟨sign .eof, by simp [tokens], rfl⟩
  have hstatements : ∀ s ∈ statements, Stmt.Proper false s := by
    intro s hs
    simp only [statements, List.mem_cons, List.not_mem_nil, or_false] at hs
    rcases hs with rfl | rfl
    · refine .function name [] fun s hs ↦ ?_
      rw [List.mem_singleton.mp hs]
      exact .ret _ nofun
    · exact .expression (.call _ (.var name) nofun)
  have hmachine := Machine.fresh_proper {} 0
  obtain ⟨hruns, hparsed, hexecuted⟩ := judged_iff_not_tooDeepToDump {}
  exact ⟨hroom, (hruns [] true false history 9 "f();" true).mpr hroom, hend,
    (hparsed 9 tokens hend).1, hstatements, hmachine,
    hexecuted 9 false statements _ hstatements hmachine⟩

/-- A sum that is to be written, and has more terms than there are levels for. -/
theorem long_sum_not_judged :
    let session := Session.new [.dumpTree, .noExecute] false false
    let source := "1+1+1+1+1+1+1+1+1+1+1+1+1+1+1+1;"
    ¬Judged (session.run { levels := 40 } 9 source false).1 := by
  intro session source hjudged
  have hform : session.formFaults { levels := 40 } source = [] := by decide +kernel
  have hdeep : ∃ s ∈ treesOf 40 source, 40 < s.textLevels := by decide +kernel
  rw [run_undumped { levels := 40 } 9 source false ⟨rfl, rfl, hform, hdeep⟩] at hjudged
  exact not_judged_exhausted hjudged

end Session

end Lox
