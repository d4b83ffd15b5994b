import Lox.Proofs.Machine.Renumbering
import Lox.Proofs.Session.Join
import Lox.Proofs.Session.Verdict

/-!
# Beginning anew

When everything declared in a session is forgotten, the session is as good as a new one.  What the
past leaves behind is scopes that nothing leads to, numbers that have been used up, readings of the
clock that have been taken, and the faults of the last run; none of it can be told from the answers
to anything that is asked later.
-/

namespace Lox

open Stateful

theorem Value.Corresponds.alike {functions : Nat} {scope : ScopeId → ScopeId → Prop} {x y : Value}
    (h : x.Corresponds functions scope y) : y.Alike x := by
  cases h with
  | atom | native => exact rfl
  | closure => exact ⟨rfl, rfl⟩

/-! ## What programs do not touch -/

namespace Machine

theorem AtRest.program {m : Machine} (h : m.AtRest) (settings : Settings) (steps : Nat)
    (echo : Bool) (statements : List Stmt) :
    (final (Eval.program settings steps echo statements m)).AtRest :=
  (restored_evolution.program_moves settings steps echo statements m).atRest h

/-- Whether emphasis is shown by colours is settled once and for all. -/
theorem coloured_evolution :
    Evolution (fun m m' ↦ m'.console.coloured = m.console.coloured)
      (fun m m' ↦ m'.console.coloured = m.console.coloured) where
  refl _ := rfl
  trans _ _ _ h h' := h'.trans h
  executes_trans _ _ _ h h' := h'.trans h
  executes_of_evaluates _ _ h := h
  assign _ _ _ _ _ _ := rfl
  define _ _ _ := rfl
  makeClosure _ := rfl
  readClock _ := rfl
  print _ _ := rfl
  trace _ _ := rfl
  scope _ _ _ h := h
  frame _ _ _ h := h

end Machine

namespace Session

/-! ## Answers that are alike -/

/-- The same verdict, or the same globals with values that are the same, but for the numbers of
functions. -/
inductive Reply.Alike : Reply → Reply → Prop
  | judged (result : Except Escape Verdict) : Alike (.judged result) (.judged result)
  | done : Alike .done .done
  | globals {xs ys : List (String × Value)}
      (h : List.Forall₂ (fun x y ↦ x.1 = y.1 ∧ x.2.Alike y.2) xs ys) :
      Alike (.globals xs) (.globals ys)

structure Answer.Alike (a b : Answer) : Prop where
  reply : a.reply.Alike b.reply
  out : a.out = b.out
  err : a.err = b.err

/-- Some steps are taken, and the globals are listed after each. -/
def inspected (steps : List Step) : List Request :=
  steps.flatMap fun step ↦ [.step step, .globals]

/-! ## A new session beside one with a past -/

/-- Sessions whose reporters are set up alike, on coupled machines. -/
structure Beside (c : Coupling) (a b : Session) : Prop where
  flags : b.flags = a.flags
  echo : b.reporter.echo = a.reporter.echo
  machine : c.Coupled a.machine b.machine
  left : a.machine.AtRest
  right : b.machine.AtRest

variable {functions skipped readings : Nat} {a b : Session}

namespace Beside

variable (h : Beside (.renumbered functions skipped readings) a b)
include h

theorem has (flag : Flag) : b.has flag = a.has flag := by
  rw [Session.has, Session.has, h.flags]

/-- The same may be written and collected in both sessions. -/
theorem watched {after : Session} (hwatched : a.Watched after) :
    Beside (.renumbered functions skipped readings) after (after.onto b.machine) where
  flags := rfl
  echo := rfl
  machine := by
    have hcoupled : (Coupling.renumbered functions skipped readings).Coupled
        { a.machine with console := after.machine.console }
        { b.machine with console := after.machine.console } := h.machine.withConsole rfl
    rw [← hwatched.machine] at hcoupled
    exact hcoupled
  left := by
    rw [hwatched.machine]
    exact h.left
  right := h.right

end Beside

/-- Executions that end alike come to the same verdict. -/
theorem concluded_beside {reporter : Reporter} {before : Machine}
    {result result' : EStateM.Result Halt Machine Unit}
    (hdone : (Coupling.renumbered functions skipped readings).Done (fun _ _ _ ↦ True) before result
      result')
    (hleft : (final result).AtRest) (hright : (final result').AtRest)
    (hjudged : Judged (concluded reporter result').1) :
    (concluded reporter result').1 = (concluded reporter result).1 ∧
      Beside (.renumbered functions skipped readings) (concluded reporter result).2
        (concluded reporter result').2 := by
  have hidle {m m' : Machine}
      (hcoupled : (Coupling.renumbered functions skipped readings).Coupled m m')
      (hm : m.AtRest) (hm' : m'.AtRest) :
      Beside (.renumbered functions skipped readings) ⟨reporter, m.idle⟩ ⟨reporter, m'.idle⟩ := by
    rw [hm.idle_eq, hm'.idle_eq]
    exact ⟨rfl, rfl, hcoupled, hm, hm'⟩
  cases result with
  | ok _ m =>
    cases result' with
    | ok _ m' => exact ⟨rfl, hidle hdone.1 hleft hright⟩
    | error halt' m' => cases hdone
  | error halt m =>
    cases result' with
    | ok _ m' => cases hdone
    | error halt' m' =>
      obtain ⟨hcoupled, -, hhalts⟩ := hdone
      have hbeside := hidle hcoupled hleft hright
      have honto : (⟨reporter, m'.idle⟩ : Session) = onto ⟨reporter, m.idle⟩ m'.idle := by
        rw [onto, ← hbeside.machine.console]
      have hreported (d : Diagnostic) :
          (reportAll ⟨reporter, m'.idle⟩ [d]).verdict =
            (reportAll ⟨reporter, m.idle⟩ [d]).verdict ∧
          Beside (.renumbered functions skipped readings) (reportAll ⟨reporter, m.idle⟩ [d])
            (reportAll ⟨reporter, m'.idle⟩ [d]) := by
        rw [honto, reportAll_onto]
        exact ⟨rfl, hbeside.watched (reportAll_watched _ _)⟩
      cases halt with
      | failed d =>
        cases hhalts
        exact ⟨congrArg Except.ok (hreported d).1, (hreported d).2⟩
      | exhausted =>
        cases hhalts
        exact ⟨congrArg Except.ok (hreported .overflow).1, (hreported .overflow).2⟩
      | faulted | unfinished =>
        cases hhalts
        exact ⟨rfl, hbeside⟩
      | returned v =>
        -- No return leaves a run.
        cases halt' with
        | returned v' =>
          rcases hjudged with ⟨_, hverdict⟩ | hunfinished
          · cases hverdict
          · cases hunfinished
        | failed | faulted | exhausted | unfinished => cases hhalts

namespace Beside

variable (h : Beside (.renumbered functions skipped readings) a b)
include h

/-- A text comes to the same in both sessions. -/
theorem run (hproper : b.machine.Proper) (settings : Settings) (steps : Nat) (source : String)
    (echo : Bool) :
    (b.run settings steps source echo).1 =
        (a.run (settings.later readings) steps source echo).1 ∧
      Beside (.renumbered functions skipped readings)
        (a.run (settings.later readings) steps source echo).2
        (b.run settings steps source echo).2 := by
  have hsound := (run_sound settings steps source echo hproper).1
  have hreadied := readied_onto h.flags h.echo h.machine.console settings source
  have hbeside := h.watched (a.readied_watched settings source)
  cases hparse : a.has .noParse with
  | true =>
    rw [run_unparsed settings steps source echo ((h.has _).trans hparse),
      run_unparsed (settings.later readings) steps source echo hparse,
      scanned_onto h.flags h.echo h.machine.console]
    exact ⟨rfl, h.watched (a.scanned_watched _)⟩
  | false =>
    have hparse' := (h.has .noParse).trans hparse
    have hdeep' : b.TooDeepToDump settings source ↔
        a.TooDeepToDump (settings.later readings) source :=
      tooDeepToDump_congr settings (settings.later readings) source rfl h.has
    by_cases hdeep : a.TooDeepToDump (settings.later readings) source
    · rw [run_undumped settings steps source echo (hdeep'.mpr hdeep),
        run_undumped (settings.later readings) steps source echo hdeep, hreadied]
      exact ⟨rfl, hbeside⟩
    have hroom : ¬b.TooDeepToDump settings source := fun hdeeper ↦ hdeep (hdeep'.mp hdeeper)
    have hstops' : ((b.readied settings source).stops || b.has .noExecute) =
        ((a.readied settings source).stops || a.has .noExecute) := by
      rw [hreadied, h.has]
      rfl
    cases hstops : (a.readied settings source).stops || a.has .noExecute with
    | true =>
      rw [run_unexecuted settings steps source echo hparse' hroom (hstops'.trans hstops),
        run_unexecuted (settings.later readings) steps source echo hparse hdeep hstops, hreadied]
      exact ⟨rfl, hbeside⟩
    | false =>
      have htraced : a.traced (settings.later readings) = (b.traced settings).later readings := by
        rw [traced, traced, h.has]
        rfl
      have hdone := Coupling.program_done
        (Coupling.renumbered_fits functions skipped readings (b.traced settings)) rfl steps echo
        (treesOf settings.levels source) hbeside.machine
      have hjudged := hsound.resolve_right fun h ↦ hroom h.2
      rw [run_executed settings steps source echo ⟨hparse', hroom, hstops'.trans hstops⟩, hreadied]
        at hjudged ⊢
      rw [run_executed (settings.later readings) steps source echo ⟨hparse, hdeep, hstops⟩, htraced]
      exact concluded_beside hdone (hbeside.left.program _ _ _ _) (hbeside.right.program _ _ _ _)
        hjudged

/-- The same globals are declared in both sessions. -/
theorem globals :
    List.Forall₂ (fun x y ↦ x.1 = y.1 ∧ x.2.Alike y.2) b.globals a.globals := by
  have hcurrent := h.machine.current
  rw [h.left.1] at hcurrent
  have hlisting := h.machine.scopes.listing hcurrent.2
  rw [← h.machine.globals] at hlisting
  exact hlisting.flip.imp fun _ _ hxy ↦ ⟨hxy.1, hxy.2.alike⟩

theorem cleared : Beside (.renumbered functions skipped readings)
    (a.onConsole Console.cleared) (b.onConsole Console.cleared) where
  flags := h.flags
  echo := h.echo
  machine := h.machine.withConsole (congrArg Console.cleared h.machine.console)
  left := h.left
  right := h.right

/-- The same is replied to a step in both sessions, and to a request for the globals. -/
theorem respond (hproper : b.machine.Proper) (settings : Settings) {request : Request}
    (hrequest : request = .globals ∨ ∃ step, request = .step step) :
    (b.respond settings request).1.Alike (a.respond (settings.later readings) request).1 ∧
      Beside (.renumbered functions skipped readings)
        (a.respond (settings.later readings) request).2 (b.respond settings request).2 ∧
      (b.respond settings request).2.machine.Proper := by
  rcases hrequest with rfl | ⟨step, rfl⟩
  · exact ⟨.globals h.globals, h, hproper⟩
  · cases step with
    | run steps source echo =>
      obtain ⟨hresult, hbeside⟩ := h.run hproper settings steps source echo
      refine ⟨?_, hbeside, (run_sound settings steps source echo hproper).2⟩
      change Reply.Alike (.judged (b.run settings steps source echo).1) _
      rw [hresult]
      exact .judged _
    | setFlags flags => exact ⟨.done, ⟨rfl, h.echo, h.machine, h.left, h.right⟩, hproper⟩
    | restart =>
      have hrenewed := Coupling.renumbered_renewed h.machine.scopes h.machine.functions
        h.machine.readings h.machine.console
      exact ⟨.done, ⟨h.flags, h.echo, hrenewed, ⟨rfl, rfl⟩, ⟨rfl, rfl⟩⟩, .renewed hproper⟩

end Beside

/-- What is answered does not depend on the past. -/
theorem answers_alike (settings : Settings) {requests : List Request}
    (hrequests : ∀ request ∈ requests, request = .globals ∨ ∃ step, request = .step step)
    (h : Beside (.renumbered functions skipped readings) (a.onConsole Console.cleared)
      (b.onConsole Console.cleared))
    (hproper : b.machine.Proper) :
    List.Forall₂ Answer.Alike (b.answers settings requests)
      (a.answers (settings.later readings) requests) := by
  induction requests generalizing a b with
  | nil => exact .nil
  | cons request requests ih =>
    obtain ⟨hrequest, hothers⟩ := List.forall_mem_cons.mp hrequests
    obtain ⟨hreply, hbeside, hafter⟩ := h.respond hproper settings hrequest
    have hconsole := hbeside.machine.console
    exact .cons ⟨hreply, congrArg Console.out hconsole, congrArg Console.err hconsole⟩
      (ih hothers hbeside.cleared hafter)

/-! ## What a session keeps -/

/-- A run changes neither whether faults are shown nor whether colours are used. -/
theorem run_keeps (settings : Settings) (steps : Nat) (source : String) (echo : Bool)
    (session : Session) :
    (session.run settings steps source echo).2.reporter.echo = session.reporter.echo ∧
      (session.run settings steps source echo).2.machine.console.coloured =
        session.machine.console.coloured := by
  have hreadied := session.readied_watched settings source
  apply run_elim fun result ↦ result.2.reporter.echo = session.reporter.echo ∧
    result.2.machine.console.coloured = session.machine.console.coloured
  · intro _
    have hscanned := session.scanned_watched (Text.joinReturns source)
    exact ⟨hscanned.echo, hscanned.coloured⟩
  · exact fun _ ↦ ⟨hreadied.echo, hreadied.coloured⟩
  · exact fun _ _ ↦ ⟨hreadied.echo, hreadied.coloured⟩
  · intro _
    have hexecuted := Machine.coloured_evolution.program_moves (session.traced settings) steps
      echo (treesOf settings.levels source) (session.readied settings source).machine
    have hconcluded := concluded_watched (session.readied settings source).reporter
      (Eval.program (session.traced settings) steps echo (treesOf settings.levels source)
        (session.readied settings source).machine)
    exact ⟨hconcluded.echo.trans hreadied.echo,
      hconcluded.coloured.trans (hexecuted.trans hreadied.coloured)⟩

theorem takeAll_keeps (settings : Settings) (session : Session) (history : List Step) :
    (session.takeAll settings history).reporter.echo = session.reporter.echo ∧
      (session.takeAll settings history).machine.console.coloured =
        session.machine.console.coloured := by
  induction history generalizing session with
  | nil => exact ⟨rfl, rfl⟩
  | cons step history ih =>
    have htaken : (session.take settings step).reporter.echo = session.reporter.echo ∧
        (session.take settings step).machine.console.coloured =
          session.machine.console.coloured := by
      cases step with
      | run steps source echo => exact run_keeps settings steps source echo session
      | setFlags flags => exact ⟨rfl, rfl⟩
      | restart => exact ⟨rfl, rfl⟩
    obtain ⟨hecho, hcoloured⟩ := ih (session.take settings step)
    exact ⟨hecho.trans htaken.1, hcoloured.trans htaken.2⟩

/-- A session in which everything is forgotten is as good as new.  Whatever was done before, the
same is answered to all that is asked later as in a new session with the same flags, whose clock
goes on where that of the old one was left: the same verdicts, the same globals after each step, and
the same output in both streams. -/
theorem restarted_as_new (settings : Settings) (flags : Flags) (echoErrors coloured : Bool)
    (history later : List Step) :
    let used := (Session.new flags echoErrors coloured).takeAll settings history
    List.Forall₂ Answer.Alike (used.restart.answers settings (inspected later))
      ((Session.new used.flags echoErrors coloured).answers
        (settings.later used.machine.readings) (inspected later)) := by
  intro used
  obtain ⟨hecho, hcoloured⟩ :=
    takeAll_keeps settings (Session.new flags echoErrors coloured) history
  change used.reporter.echo = echoErrors at hecho
  change used.machine.console.coloured = coloured at hcoloured
  have hproper : used.machine.Proper := takeAll_proper settings (Machine.fresh_proper _ _) history
  have hsteps : ∀ request ∈ inspected later, request = .globals ∨ ∃ step, request = .step step := by
    intro request hrequest
    obtain ⟨step, -, hmem⟩ := List.mem_flatMap.mp hrequest
    rcases List.mem_cons.mp hmem with rfl | hmem
    · exact .inr ⟨step, rfl⟩
    · exact .inl (List.mem_singleton.mp hmem)
  have hbeside : Beside (.renumbered used.machine.functions used.machine.scopes.next
      used.machine.readings)
      ((Session.new used.flags echoErrors coloured).onConsole Console.cleared)
      (used.restart.onConsole Console.cleared) := by
    have hcoupled := Coupling.renumbered_fresh
      { used.machine with console := used.machine.console.cleared }
    have hnew : ((Session.new used.flags echoErrors coloured).onConsole Console.cleared).machine =
        .fresh used.machine.console.cleared 0 := by
      rw [Console.cleared, hcoloured]
      rfl
    refine ⟨rfl, hecho, ?_, ⟨rfl, rfl⟩, ⟨rfl, rfl⟩⟩
    rw [hnew]
    exact hcoupled
  exact answers_alike settings hsteps hbeside (.renewed hproper)

end Session

end Lox
