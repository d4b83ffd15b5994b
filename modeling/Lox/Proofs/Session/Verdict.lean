import Lox.Proofs.Machine.Conduct
import Lox.Proofs.Session.Faultless
import Lox.Proofs.Session.Report
import Mathlib

/-!
# What a run comes to

The faults in a verdict are those of the form of a text, or a single one that was found while the
program was executed.  If there are faults of form, nothing is executed: the machine is left as it
was, and whatever is asked of the session later, it answers as if that text had not been run.
-/

namespace Lox

open Stateful Lox.Parser

/-! ## Outcomes -/

namespace Outcome

/-- Faults of form make a run fail before it is executed. -/
theorem ofErrors_of_static {errors : List Diagnostic} (hne : errors ≠ [])
    (h : ∀ d ∈ errors, d.category = .lexical ∨ d.category = .syntactic) :
    ofErrors errors = .staticError := by
  have hnone {category : Category} (hcategory : category ≠ .lexical ∧ category ≠ .syntactic) :
      errors.any (·.category == category) = false := by
    rw [List.any_eq_false]
    intro d hd heq
    have hd' := h d hd
    rw [eq_of_beq heq] at hd'
    exact hd'.elim hcategory.1 hcategory.2
  have hempty : errors.isEmpty = false := List.isEmpty_eq_false_iff.mpr hne
  rw [ofErrors, hnone (by decide), hnone (by decide), hempty]
  rfl

/-- An overflow is fatal, whatever else was found. -/
theorem ofErrors_of_overflow {errors : List Diagnostic} {d : Diagnostic} (hd : d ∈ errors)
    (h : d.category = .overflow) : ofErrors errors = .fatalError := by
  have hany : errors.any (·.category == .overflow) = true :=
    List.any_eq_true.mpr ⟨d, hd, beq_iff_eq.mpr h⟩
  rw [ofErrors, hany]
  rfl

theorem ofErrors_of_runtime {d : Diagnostic} (h : d.category = .runtime) :
    ofErrors [d] = .runtimeError := by
  simp [ofErrors, h]

end Outcome

/-! ## Faults of execution -/

/-- A fault of an operation, or an overflow of calls. -/
def Diagnostic.Raised (d : Diagnostic) : Prop :=
  d.category = .runtime ∨ d.category = .overflow ∧ d.message = overflowMessage

def raising : Conduct where
  assigns _ := True
  fault := Diagnostic.Raised
  evaluates _ _ := True
  executes _ _ _ := True
  fail _ _ := .inl rfl
  overflow _ := .inr ⟨rfl, rfl⟩
  located _ _ h := h
  refl _ := trivial
  trans _ _ _ _ _ := trivial
  executes_trans _ _ _ _ _ _ := trivial
  executes_of_evaluates _ _ _ _ := trivial
  assign _ _ _ _ _ _ _ := trivial
  define _ _ _ _ _ := trivial
  makeClosure _ _ := trivial
  readClock _ := trivial
  print _ _ _ := trivial
  trace _ _ := trivial
  scope _ _ _ _ := trivial
  frame _ _ _ _ := trivial

/-- No execution ends with a fault of another kind. -/
theorem Eval.raised_of_program {settings : Settings} {steps : Nat} {echo : Bool}
    {statements : List Stmt} {m after : Machine} {d : Diagnostic}
    (h : program settings steps echo statements m = .error (.failed d) after) : d.Raised := by
  have hholds := raising.program_holds settings steps echo
    (fun s (_ : s ∈ statements) ↦ s.keepsTo_true) m m.keepsTo_true
  exact (hholds.error h).2.2

namespace Session

/-! ## Later requests -/

/-- What can be asked of a session: a step, a list of the globals, or the call of one of them. -/
inductive Request where
  | step (step : Step)
  | globals
  | call (steps : Nat) (name : String) (arguments : List Value)

inductive Reply where
  | judged (result : Except Escape Verdict)
  | done
  | globals (listing : List (String × Value))
  | called (result : Except Halt Value)

structure Answer where
  reply : Reply
  out : String
  err : String

def respond (settings : Settings) (session : Session) : Request → Reply × Session
  | .step (.run steps source echo) =>
    let (result, after) := session.run settings steps source echo
    (.judged result, after)
  | .step step => (.done, session.take settings step)
  | .globals => (.globals session.globals, session)
  | .call steps name arguments =>
    let (result, after) := session.callGlobal settings steps name arguments
    (.called result, after)

/-- The answer to a request and the session after it.  What was written before is taken away. -/
def answer (settings : Settings) (session : Session) (request : Request) : Answer × Session :=
  let (reply, after) := (session.onConsole Console.cleared).respond settings request
  (⟨reply, after.machine.console.out, after.machine.console.err⟩, after)

def answers (settings : Settings) (session : Session) : List Request → List Answer
  | [] => []
  | request :: requests =>
    let (answer, after) := session.answer settings request
    answer :: after.answers settings requests

/-- The same machine is watched in the same way.  The text of the last run and the faults found in
it are not remembered beyond the next run. -/
structure Matches (a b : Session) : Prop where
  machine : a.machine = b.machine
  flags : a.flags = b.flags
  echo : a.reporter.echo = b.reporter.echo

namespace Matches

variable {a b : Session}

theorem run_eq (h : a.Matches b) (settings : Settings) (steps : Nat) (source : String)
    (echo : Bool) : a.run settings steps source echo = b.run settings steps source echo := by
  obtain ⟨⟨flags, echoes, _, _⟩, m⟩ := a
  obtain ⟨⟨flags', echoes', _, _⟩, m'⟩ := b
  obtain ⟨rfl, rfl, rfl⟩ := h
  rfl

theorem respond (h : a.Matches b) (settings : Settings) (request : Request) :
    (a.respond settings request).1 = (b.respond settings request).1 ∧
      (a.respond settings request).2.Matches (b.respond settings request).2 := by
  cases request with
  | step step =>
    cases step with
    | run steps source echo =>
      simp only [Session.respond, h.run_eq]
      exact ⟨trivial, rfl, rfl, rfl⟩
    | setFlags flags => exact ⟨rfl, h.machine, rfl, h.echo⟩
    | restart =>
      have hfresh : a.restart.machine = b.restart.machine := by
        rw [restart, restart, h.machine]
      exact ⟨rfl, hfresh, h.flags, h.echo⟩
  | globals =>
    have hglobals : a.globals = b.globals := by
      rw [globals, globals, h.machine]
    exact ⟨congrArg Reply.globals hglobals, h⟩
  | call steps name arguments =>
    obtain ⟨⟨flags, echoes, _, _⟩, m⟩ := a
    obtain ⟨⟨flags', echoes', _, _⟩, m'⟩ := b
    obtain ⟨hmachine, hflags, hecho⟩ := h
    change m = m' at hmachine
    change flags = flags' at hflags
    change echoes = echoes' at hecho
    subst hmachine hflags hecho
    unfold Session.respond callGlobal
    dsimp only
    split
    all_goals exact ⟨rfl, rfl, rfl, rfl⟩

theorem cleared (h : a.Matches b) :
    (a.onConsole Console.cleared).Matches (b.onConsole Console.cleared) where
  machine := by rw [onConsole, onConsole, h.machine]
  flags := h.flags
  echo := h.echo

theorem answers (h : (a.onConsole Console.cleared).Matches (b.onConsole Console.cleared))
    (settings : Settings) (requests : List Request) :
    a.answers settings requests = b.answers settings requests := by
  induction requests generalizing a b with
  | nil => rfl
  | cons request requests ih =>
    obtain ⟨hreply, hafter⟩ := h.respond settings request
    have hanswer : (a.answer settings request).1 = (b.answer settings request).1 := by
      simp only [answer, hreply, hafter.machine]
    change (a.answer settings request).1 :: _ = (b.answer settings request).1 :: _
    rw [hanswer]
    exact congrArg _ (ih hafter.cleared)

end Matches

/-- What has been written and collected makes no difference to later answers. -/
theorem Watched.answers {before after : Session} (h : before.Watched after) (settings : Settings)
    (requests : List Request) :
    after.answers settings requests = before.answers settings requests := by
  apply Matches.answers
  constructor
  · have hmachine := h.machine
    have hcoloured := h.coloured
    rw [onConsole, onConsole, hmachine]
    simp only [Console.cleared, hcoloured]
  · exact h.flags
  · exact h.echo

/-! ## Verdicts -/

/-- Nothing of a text was executed: the machine is as it was, apart from the console, where nothing
was printed but a list of the tokens if that is asked for; and whatever comes later is answered as
if the text had not been run. -/
structure Unexecuted (settings : Settings) (source : String) (before after : Session) : Prop where
  machine : after.machine = { before.machine with console := after.machine.console }
  prints : after.machine.console.out =
    (before.dumpTokens (scan (Text.joinReturns source)).tokens).machine.console.out
  later : ∀ requests, after.answers settings requests = before.answers settings requests

def Executed (settings : Settings) (steps : Nat) (source : String) (echo : Bool)
    (session : Session) (result : EStateM.Result Halt Machine Unit) : Prop :=
  ∃ console, Eval.program { settings with traced := session.has .trace } steps echo
    (treesOf settings.levels source) { session.machine with console } = result

/-- The fault in which the execution of a text ended. -/
def EndedIn (settings : Settings) (steps : Nat) (source : String) (echo : Bool) (session : Session)
    (d : Diagnostic) : Prop :=
  ∃ halt after, Executed settings steps source echo session (.error halt after) ∧
    (halt = .failed d ∨ halt = .exhausted ∧ d = .overflow)

/-- The verdicts to which running a text can come. -/
inductive Concludes (settings : Settings) (steps : Nat) (source : String) (echo : Bool)
    (before after : Session) : Verdict → Prop
  | success (hform : before.formFaults settings source = [])
      (hended : before.has .noParse = true ∨ before.has .noExecute = true ∨
        ∃ m, Executed settings steps source echo before (.ok () m)) :
      Concludes settings steps source echo before after ⟨.success, []⟩
  | misformed {lexical syntactic : List Diagnostic}
      (hform : before.formFaults settings source = lexical ++ syntactic)
      (hne : lexical ++ syntactic ≠ []) (hlexical : ∀ d ∈ lexical, d.category = .lexical)
      (hsyntactic : ∀ d ∈ syntactic, d.category = .syntactic)
      (hunexecuted : Unexecuted settings source before after) :
      Concludes settings steps source echo before after ⟨.staticError, lexical ++ syntactic⟩
  | nested {lexical syntactic : List Diagnostic} {d : Diagnostic}
      (hform : before.formFaults settings source = lexical ++ syntactic ++ [d])
      (hlexical : ∀ d ∈ lexical, d.category = .lexical)
      (hsyntactic : ∀ d ∈ syntactic, d.category = .syntactic)
      (hcategory : d.category = .overflow) (hmessage : d.message = nestingMessage)
      (hunexecuted : Unexecuted settings source before after) :
      Concludes settings steps source echo before after
        ⟨.fatalError, lexical ++ syntactic ++ [d]⟩
  | failed {d : Diagnostic} (hform : before.formFaults settings source = [])
      (hended : EndedIn settings steps source echo before d) (hcategory : d.category = .runtime) :
      Concludes settings steps source echo before after ⟨.runtimeError, [d]⟩
  | overflowed {d : Diagnostic} (hform : before.formFaults settings source = [])
      (hended : EndedIn settings steps source echo before d) (hcategory : d.category = .overflow)
      (hmessage : d.message = Diagnostic.overflowMessage) :
      Concludes settings steps source echo before after ⟨.fatalError, [d]⟩

/-! ## Scanning and parsing -/

/-- Lexical faults come first, then syntactic ones, and then at most one for too much nesting. -/
theorem formFaults_eq (settings : Settings) (source : String) (session : Session) :
    ∃ lexical syntactic nesting,
      session.formFaults settings source = lexical ++ syntactic ++ nesting ∧
      (∀ d ∈ lexical, d.category = .lexical) ∧ (∀ d ∈ syntactic, d.category = .syntactic) ∧
      (nesting = [] ∨
        ∃ d, nesting = [d] ∧ d.category = .overflow ∧ d.message = nestingMessage) := by
  have hlexical : ∀ d ∈ (scan (Text.joinReturns source)).errors.map LexicalError.diagnostic,
      d.category = .lexical := by
    intro d hd
    obtain ⟨error, -, rfl⟩ := List.mem_map.mp hd
    rfl
  unfold formFaults
  split
  · exact ⟨_, [], [], by simp, hlexical, List.forall_mem_nil _, .inl rfl⟩
  · refine ⟨_, _, _, (List.append_assoc _ _ _).symm, hlexical, ?_, ?_⟩
    · intro d hd
      obtain ⟨error, -, rfl⟩ := List.mem_map.mp hd
      rfl
    · split
      · exact .inr ⟨_, rfl, rfl, rfl⟩
      · exact .inl rfl

/-! ## Conclusions -/

variable {settings : Settings} {steps : Nat} {source : String} {echo : Bool}
  {before after : Session}

theorem verdict_of_nil (h : after.reporter.errors.toList = []) :
    after.verdict = ⟨.success, []⟩ := by
  rw [verdict, h]
  rfl

/-- The verdict if there are faults of form. -/
theorem concludes_of_faults
    (herrors : after.reporter.errors.toList = before.formFaults settings source)
    (hne : before.formFaults settings source ≠ [])
    (hunexecuted : Unexecuted settings source before after) :
    Concludes settings steps source echo before after after.verdict := by
  obtain ⟨lexical, syntactic, nesting, hform, hlexical, hsyntactic, hnesting⟩ :=
    before.formFaults_eq settings source
  rw [verdict, herrors, Verdict.ofErrors, hform]
  rw [hform] at hne
  rcases hnesting with rfl | ⟨d, rfl, hcategory, hmessage⟩
  · rw [List.append_nil] at hform hne ⊢
    rw [Outcome.ofErrors_of_static hne]
    · exact .misformed hform hne hlexical hsyntactic hunexecuted
    · intro d hd
      exact (List.mem_append.mp hd).imp (hlexical d) (hsyntactic d)
  · have hmem : d ∈ lexical ++ syntactic ++ [d] := List.mem_append_right _ List.mem_cons_self
    rw [Outcome.ofErrors_of_overflow hmem hcategory]
    exact .nested hform hlexical hsyntactic hcategory hmessage hunexecuted

section

variable (hform : before.formFaults settings source = [])
include hform

/-- The verdict if one fault was found in the execution. -/
theorem concludes_of_raised {session : Session} (herrors : session.reporter.errors.toList = [])
    {d : Diagnostic} (hraised : d.Raised) (hended : EndedIn settings steps source echo before d) :
    Concludes settings steps source echo before (session.reportAll [d])
      (session.reportAll [d]).verdict := by
  rw [verdict, errors_reportAll, herrors, List.nil_append, Verdict.ofErrors]
  rcases hraised with hcategory | ⟨hcategory, hmessage⟩
  · rw [Outcome.ofErrors_of_runtime hcategory]
    exact .failed hform hended hcategory
  · rw [Outcome.ofErrors_of_overflow List.mem_cons_self hcategory]
    exact .overflowed hform hended hcategory hmessage

/-- The verdict once the trees have been executed. -/
theorem concluded_concludes {session : Session} (hwatched : before.Watched session)
    (herrors : session.reporter.errors.toList = []) {verdict : Verdict}
    (h : concluded session.reporter (Eval.program (before.traced settings) steps echo
      (treesOf settings.levels source) session.machine) = (.ok verdict, after)) :
    Concludes settings steps source echo before after verdict := by
  have hnil (machine : Machine) :
      (Session.mk session.reporter machine).reporter.errors.toList = [] := herrors
  rw [hwatched.machine] at h
  cases hprogram : Eval.program (before.traced settings) steps echo (treesOf settings.levels source)
      { before.machine with console := session.machine.console } with
  | ok _ machine =>
    rw [hprogram] at h
    cases h
    rw [verdict_of_nil (hnil _)]
    exact .success hform (.inr (.inr ⟨machine, _, hprogram⟩))
  | error halt machine =>
    have hended (d : Diagnostic) (hd : halt = .failed d ∨ halt = .exhausted ∧ d = .overflow) :
        EndedIn settings steps source echo before d :=
      ⟨halt, machine, ⟨_, hprogram⟩, hd⟩
    rw [hprogram] at h
    cases halt with
    | failed d =>
      cases h
      exact concludes_of_raised hform (hnil _) (Eval.raised_of_program hprogram)
        (hended d (.inl rfl))
    | exhausted =>
      cases h
      exact concludes_of_raised hform (hnil _) (.inr ⟨rfl, rfl⟩) (hended _ (.inr ⟨rfl, rfl⟩))
    | returned | faulted | unfinished => cases h

end

/-- The verdict if a text is not to be parsed. -/
theorem scanned_concludes {session : Session} (hparse : session.has .noParse = true) :
    Concludes settings steps source echo session (session.scanned (Text.joinReturns source))
      (session.scanned (Text.joinReturns source)).verdict := by
  have hwatched := session.scanned_watched (Text.joinReturns source)
  have herrors : (session.scanned (Text.joinReturns source)).reporter.errors.toList =
      session.formFaults settings source := by
    rw [errors_scanned, formFaults, hparse, if_pos rfl, List.append_nil]
  by_cases hform : session.formFaults settings source = []
  · rw [verdict_of_nil (herrors.trans hform)]
    exact .success hform (.inl hparse)
  · exact concludes_of_faults herrors hform
      ⟨hwatched.machine, session.out_scanned _, hwatched.answers settings⟩

/-- The verdict if there are faults of form, or a text is not to be executed. -/
theorem readied_concludes {session : Session} (hparse : session.has .noParse = false)
    (hstops : ((session.readied settings source).stops || session.has .noExecute) = true) :
    Concludes settings steps source echo session (session.readied settings source)
      (session.readied settings source).verdict := by
  have hwatched := session.readied_watched settings source
  have herrors := errors_readied settings source hparse
  by_cases hform : session.formFaults settings source = []
  · have hgoes : (session.readied settings source).stops = false := by
      rw [← Bool.not_eq_true, stops_iff, herrors]
      exact fun hne ↦ hne hform
    rw [hgoes, Bool.false_or] at hstops
    rw [verdict_of_nil (herrors.trans hform)]
    exact .success hform (.inr (.inl hstops))
  · refine concludes_of_faults herrors hform ⟨hwatched.machine, ?_, hwatched.answers settings⟩
    rw [readied, dumpTree_of_faults, out_reportAll, out_scanned]
    rw [errors_reportAll, errors_scanned]
    rwa [formFaults, hparse] at hform

/-- The shape of a verdict.  Whatever text is run in whatever session, a verdict is success without
faults; or a static error with lexical faults and then syntactic ones; or a fatal error with such
faults and then one for too much nesting; or a runtime error or a fatal error with the single fault
in which the execution ended.  If there are faults of form, nothing was executed, and the session
goes on as if the text had not been run.  On a proper machine every run that ends comes to a verdict,
unless its trees are too deep to be written. -/
theorem every_verdict_shaped (settings : Settings) (steps : Nat) (source : String) (echo : Bool)
    (session : Session) :
    (∀ verdict after, session.run settings steps source echo = (.ok verdict, after) →
      Concludes settings steps source echo session after verdict) ∧
    (session.machine.Proper → (session.run settings steps source echo).1 ≠ .error .unfinished →
      ¬session.TooDeepToDump settings source →
      ∃ verdict, (session.run settings steps source echo).1 = .ok verdict) := by
  constructor
  · apply run_elim fun result ↦ ∀ verdict after, result = (.ok verdict, after) →
      Concludes settings steps source echo session after verdict
    · rintro hparse verdict after h
      cases h
      exact scanned_concludes hparse
    · rintro - verdict after h
      cases h
    · rintro hparse hstops verdict after h
      cases h
      exact readied_concludes hparse hstops
    · intro hexecutes verdict after h
      have hnil := hexecutes.errors_eq
      exact concluded_concludes ((errors_readied settings source hexecutes.parses).symm.trans hnil)
        (session.readied_watched settings source) hnil h
  · intro hproper hends hroom
    have hjudged := (run_sound settings steps source echo hproper).1.resolve_right fun h ↦ hroom h.2
    exact hjudged.resolve_right hends

/-- `@)` has a lexical fault and a syntactic one, so it is not executed. -/
theorem misformed_text_unexecuted :
    let settings : Settings := { levels := 30 }
    let session := Session.new [] false false
    let result := session.run settings 9 "@)" true
    session.machine.Proper ∧ result.1 ≠ .error .unfinished ∧
      ¬session.TooDeepToDump settings "@)" ∧ ∃ verdict, result = (.ok verdict, result.2) ∧
        verdict.outcome = .staticError ∧
        verdict.errors.map Diagnostic.category = [.lexical, .syntactic] ∧
        Concludes settings 9 "@)" true session result.2 verdict := by
  intro settings session result
  have hproper : session.machine.Proper := Machine.fresh_proper _ _
  have hoption : result.1.toOption.map (fun v ↦ (v.outcome, v.errors.map Diagnostic.category)) =
      some (.staticError, [.lexical, .syntactic]) := by
    revert settings
    cbv
  have hends : result.1 ≠ .error .unfinished := by
    intro heq
    rw [heq] at hoption
    cases hoption
  obtain ⟨hconcludes, hjudged⟩ := every_verdict_shaped settings 9 "@)" true session
  have hroom : ¬session.TooDeepToDump settings "@)" := by
    intro hdeep
    cases hdeep.dumps
  obtain ⟨verdict, hverdict⟩ := hjudged hproper hends hroom
  have hresult : result = (.ok verdict, result.2) := by
    rw [← hverdict]
  change result.1 = _ at hverdict
  rw [hverdict] at hoption
  obtain ⟨houtcome, hcategories⟩ := Prod.mk.inj (Option.some.inj hoption)
  exact ⟨hproper, hends, hroom, verdict, hresult, houtcome, hcategories,
    hconcludes verdict result.2 hresult⟩

end Session

end Lox
