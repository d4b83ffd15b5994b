import Lox.Proofs.Machine.Silence
import Lox.Proofs.Session.Verdict

/-!
# Looking into a run

A run can be looked into: tokens and trees can be listed, steps reported, faults shown in several
ways and the values of expressions printed.  None of this has an influence on what the run comes to.
-/

namespace Lox

open Stateful

def Flags.Executes (flags : Flags) : Prop :=
  Flag.noParse ∉ flags ∧ Flag.noExecute ∉ flags

def Flags.Unlisted (flags : Flags) : Prop :=
  Flag.dumpTokens ∉ flags ∧ Flag.dumpTree ∉ flags

namespace Session

/-- The session with other flags, and with faults shown or not. -/
def observed (session : Session) (flags : Flags) (echoErrors : Bool) : Session :=
  { session with reporter := { session.reporter with flags, echo := echoErrors } }

/-- Two runs come to the same result with the same faults.  They leave the same globals behind, and
all else on the machine is the same too, apart from the console. -/
structure SameEnd (a b : Except Escape Verdict × Session) : Prop where
  result : b.1 = a.1
  errors : b.2.reporter.errors = a.2.reporter.errors
  globals : b.2.globals = a.2.globals
  machine : b.2.machine.hushed = a.2.machine.hushed

theorem SameEnd.symm {a b : Except Escape Verdict × Session} (h : SameEnd a b) : SameEnd b a :=
  ⟨h.result.symm, h.errors.symm, h.globals.symm, h.machine.symm⟩

theorem globals_eq_of_hushed {a b : Session} (h : b.machine.hushed = a.machine.hushed) :
    b.globals = a.globals := by
  have hscopes := congrArg Machine.scopes h
  have hglobals := congrArg Machine.globals h
  change b.machine.scopes = a.machine.scopes at hscopes
  change b.machine.globals = a.machine.globals at hglobals
  rw [globals, globals, hscopes, hglobals]

/-! ## Executions that end in the same way -/

theorem hushed_concluded (reporter : Reporter) (result : EStateM.Result Halt Machine Unit) :
    (concluded reporter result).2.machine.hushed =
      (final (image Machine.hushed id id result)).idle := by
  rw [(concluded_watched reporter result).machine]
  cases result <;> rfl

/-- Executions that are the same but for the consoles come to the same end. -/
theorem concluded_sameEnd {reporter reporter' : Reporter}
    (herrors : reporter'.errors = reporter.errors)
    {result result' : EStateM.Result Halt Machine Unit}
    (h : image Machine.hushed id id result' = image Machine.hushed id id result) :
    SameEnd (concluded reporter result) (concluded reporter' result') := by
  have hmachine : (concluded reporter' result').2.machine.hushed =
      (concluded reporter result).2.machine.hushed := by
    rw [hushed_concluded, hushed_concluded, h]
  have hverdict (m m' : Machine) : verdict ⟨reporter', m'⟩ = verdict ⟨reporter, m⟩ := by
    rw [verdict, verdict, herrors]
  have hreported (m m' : Machine) (d : Diagnostic) :
      (reportAll ⟨reporter', m'⟩ [d]).reporter.errors =
        (reportAll ⟨reporter, m⟩ [d]).reporter.errors := by
    rw [reporter_reportAll, reporter_reportAll, herrors]
  have hjudged (m m' : Machine) (d : Diagnostic) :
      (reportAll ⟨reporter', m'⟩ [d]).verdict = (reportAll ⟨reporter, m⟩ [d]).verdict := by
    rw [verdict, verdict, hreported m m']
  have hends : (concluded reporter' result').1 = (concluded reporter result).1 ∧
      (concluded reporter' result').2.reporter.errors =
        (concluded reporter result).2.reporter.errors := by
    cases result with
    | ok _ m =>
      cases result' with
      | ok _ m' => exact ⟨congrArg Except.ok (hverdict _ _), herrors⟩
      | error halt' m' => cases h
    | error halt m =>
      cases result' with
      | ok _ m' => cases h
      | error halt' m' =>
        obtain rfl : halt' = halt := (EStateM.Result.error.inj h).1
        cases halt' with
        | failed d => exact ⟨congrArg Except.ok (hjudged _ _ d), hreported _ _ d⟩
        | exhausted => exact ⟨congrArg Except.ok (hjudged _ _ .overflow), hreported _ _ .overflow⟩
        | returned | faulted | unfinished => exact ⟨rfl, herrors⟩
  exact ⟨hends.1, hends.2, globals_eq_of_hushed hmachine, hmachine⟩

/-! ## One session looked into in two ways -/

section

variable {session : Session} {flags flags' : Flags} (hflags : flags.Executes)
  (hflags' : flags'.Executes) (echoErrors echoErrors' : Bool) (settings : Settings)
  (source : String)

theorem has_observed {flag : Flag} (h : flag ∉ flags) :
    (session.observed flags echoErrors).has flag = false := by
  change flags.contains flag = false
  simpa using h

theorem hushed_readied :
    ((session.observed flags echoErrors).readied settings source).machine.hushed =
      session.machine.hushed := by
  rw [((session.observed flags echoErrors).readied_watched settings source).machine]
  rfl

include hflags in
theorem formFaults_observed :
    (session.observed flags echoErrors).formFaults settings source =
      (session.observed [] true).formFaults settings source := by
  rw [formFaults, formFaults, has_observed echoErrors hflags.1, has_observed true List.not_mem_nil]

include hflags in
theorem errors_observed :
    ((session.observed flags echoErrors).readied settings source).reporter.errors.toList =
      (session.observed [] true).formFaults settings source := by
  rw [errors_readied settings source (has_observed echoErrors hflags.1),
    formFaults_observed hflags]

/-- Trees that can be written do not end a run. -/
theorem not_tooDeepToDump_of_room {echo : Bool}
    (h : ¬RunsOut fun steps ↦ (session.observed flags echoErrors).run settings steps source echo) :
    ¬(session.observed flags echoErrors).TooDeepToDump settings source := fun hdeep ↦
  h (.inl ⟨0, congrArg Prod.fst (run_undumped settings 0 source echo hdeep)⟩)

include hflags in
theorem goes_observed (hform : (session.observed [] true).formFaults settings source = []) :
    (((session.observed flags echoErrors).readied settings source).stops ||
      (session.observed flags echoErrors).has .noExecute) = false := by
  rw [has_observed echoErrors hflags.2, Bool.or_false, ← Bool.not_eq_true, stops_iff,
    errors_observed hflags, hform]
  exact fun hne ↦ hne rfl

include hflags in
theorem stops_observed (hform : (session.observed [] true).formFaults settings source ≠ []) :
    (((session.observed flags echoErrors).readied settings source).stops ||
      (session.observed flags echoErrors).has .noExecute) = true := by
  rw [Bool.or_eq_true, stops_iff, errors_observed hflags]
  exact .inl hform

include hflags hflags' in
/-- If there are faults of form, the runs stop with them. -/
theorem sameEnd_of_faults (hform : (session.observed [] true).formFaults settings source ≠ [])
    (steps steps' : Nat) (echo echo' : Bool) :
    SameEnd ((session.observed flags echoErrors).run settings steps source echo)
      ((session.observed flags' echoErrors').run settings steps' source echo') := by
  have herrors : ((session.observed flags' echoErrors').readied settings source).reporter.errors =
      ((session.observed flags echoErrors).readied settings source).reporter.errors := by
    apply Array.ext'
    rw [errors_observed hflags, errors_observed hflags']
  have hmachine : ((session.observed flags' echoErrors').readied settings source).machine.hushed =
      ((session.observed flags echoErrors).readied settings source).machine.hushed := by
    rw [hushed_readied, hushed_readied]
  have hroom : ¬(session.observed flags echoErrors).TooDeepToDump settings source := fun hdeep ↦
    hform ((formFaults_observed hflags echoErrors settings source).symm.trans hdeep.form)
  have hroom' : ¬(session.observed flags' echoErrors').TooDeepToDump settings source := fun hdeep ↦
    hform ((formFaults_observed hflags' echoErrors' settings source).symm.trans hdeep.form)
  rw [run_unexecuted settings steps source echo (has_observed echoErrors hflags.1) hroom
      (stops_observed hflags echoErrors settings source hform),
    run_unexecuted settings steps' source echo' (has_observed echoErrors' hflags'.1) hroom'
      (stops_observed hflags' echoErrors' settings source hform)]
  refine ⟨?_, herrors, globals_eq_of_hushed hmachine, hmachine⟩
  change Except.ok (Verdict.ofErrors _) = Except.ok (Verdict.ofErrors _)
  rw [herrors]

include hflags in
/-- Without faults of form, a run that does not run out executes the text, with levels enough. -/
theorem run_within (hform : (session.observed [] true).formFaults settings source = [])
    {echo : Bool}
    (hlimit : ¬RunsOut fun steps ↦
      (session.observed flags echoErrors).run settings steps source echo) (steps : Nat) :
    let start := (session.observed flags echoErrors).readied settings source
    let result := Eval.program ((session.observed flags echoErrors).traced settings) steps echo
      (treesOf settings.levels source) start.machine
    (session.observed flags echoErrors).run settings steps source echo =
        concluded start.reporter result ∧
      ¬∃ after, result = .error .exhausted after := by
  intro start result
  have hrun : (session.observed flags echoErrors).run settings steps source echo =
      concluded start.reporter result :=
    run_executed settings steps source echo ⟨has_observed echoErrors hflags.1,
      not_tooDeepToDump_of_room echoErrors settings source hlimit,
      goes_observed hflags echoErrors settings source hform⟩
  refine ⟨hrun, ?_⟩
  rintro ⟨after, hexhausted⟩
  rw [hexhausted] at hrun
  exact hlimit (runsOut_of_concluded hrun)

/-- What the text does on the machine, apart from all that is written. -/
abbrev essence (session : Session) (settings : Settings) (source : String) (steps : Nat)
    (echo : Bool) : EStateM.Result Halt Machine Unit :=
  Eval.silent settings.untraced steps echo (treesOf settings.levels source) session.machine

include hflags in
/-- Without faults of form, a run that does not run out comes to what the text does. -/
theorem run_of_form (hform : (session.observed [] true).formFaults settings source = [])
    {echo : Bool}
    (hlimit : ¬RunsOut fun steps ↦
      (session.observed flags echoErrors).run settings steps source echo) (steps : Nat) :
    ∃ reporter result, reporter.errors = #[] ∧
      (session.observed flags echoErrors).run settings steps source echo =
        concluded reporter result ∧
      image Machine.hushed id id result =
        image Machine.hushed id id (session.essence settings source steps echo) := by
  have hwatched := (session.observed flags echoErrors).readied_watched settings source
  have hcoupled : Coupling.mute.Coupled
      ((session.observed flags echoErrors).readied settings source).machine session.machine := by
    rw [hwatched.machine]
    exact Coupling.alongside_coupled _ trivial
  obtain ⟨hrun, hwithin⟩ := run_within hflags echoErrors settings source hform hlimit steps
  have hdone := (Coupling.program_silent
    (Coupling.mute_fits ((session.observed flags echoErrors).traced settings)) steps echo
    (treesOf settings.levels source) hcoupled).resolve_left hwithin
  refine ⟨_, _, ?_, hrun, hdone.hushed_eq.symm⟩
  apply Array.ext'
  rw [errors_observed hflags, hform]

include hflags in
theorem runsOut_of_exhausted
    (hform : (session.observed [] true).formFaults settings source = []) {steps : Nat} {echo : Bool}
    {after : Machine}
    (h : session.essence settings source steps echo = .error .exhausted after) :
    RunsOut fun steps ↦ (session.observed flags echoErrors).run settings steps source echo := by
  refine Classical.byContradiction fun hlimit ↦ ?_
  obtain ⟨reporter, result, -, hrun, hresult⟩ :=
    run_of_form hflags echoErrors settings source hform hlimit steps
  rw [h] at hresult
  cases result with
  | ok _ m => cases hresult
  | error halt m =>
    obtain rfl : halt = .exhausted := (EStateM.Result.error.inj hresult).1
    exact hlimit (runsOut_of_concluded hrun)

include hflags in
theorem unfinished_of_unfinished
    (hform : (session.observed [] true).formFaults settings source = []) {echo : Bool}
    (hlimit : ¬RunsOut fun steps ↦
      (session.observed flags echoErrors).run settings steps source echo) {steps : Nat}
    {after : Machine}
    (h : session.essence settings source steps echo = .error .unfinished after) :
    ((session.observed flags echoErrors).run settings steps source echo).1 =
      .error .unfinished := by
  obtain ⟨reporter, result, -, hrun, hresult⟩ :=
    run_of_form hflags echoErrors settings source hform hlimit steps
  rw [h] at hresult
  rw [hrun]
  cases result with
  | ok _ m => cases hresult
  | error halt m =>
    obtain rfl : halt = .unfinished := (EStateM.Result.error.inj hresult).1
    rfl

include hflags hflags' in
/-- Runs in which the text does the same come to the same. -/
theorem sameEnd_of_essence {echo echo' : Bool}
    (hlimit : ¬RunsOut fun steps ↦
      (session.observed flags echoErrors).run settings steps source echo)
    (hlimit' : ¬RunsOut fun steps ↦
      (session.observed flags' echoErrors').run settings steps source echo')
    {steps steps' : Nat} (h : session.essence settings source steps' echo' =
      session.essence settings source steps echo) :
    SameEnd ((session.observed flags echoErrors).run settings steps source echo)
      ((session.observed flags' echoErrors').run settings steps' source echo') := by
  by_cases hform : (session.observed [] true).formFaults settings source = []
  · obtain ⟨reporter, result, herrors, hrun, hresult⟩ :=
      run_of_form hflags echoErrors settings source hform hlimit steps
    obtain ⟨reporter', result', herrors', hrun', hresult'⟩ :=
      run_of_form hflags' echoErrors' settings source hform hlimit' steps'
    rw [hrun, hrun']
    apply concluded_sameEnd (herrors'.trans herrors.symm)
    rw [hresult, hresult', h]
  · exact sameEnd_of_faults hflags hflags' echoErrors echoErrors' settings source hform steps steps'
      echo echo'

include hflags hflags' in
/-- A run that ends within the limits is matched by one that is looked into in another way. -/
theorem sameEnd_of_ended (echo echo' : Bool)
    (hlimit : ¬RunsOut fun steps ↦
      (session.observed flags echoErrors).run settings steps source echo)
    (hlimit' : ¬RunsOut fun steps ↦
      (session.observed flags' echoErrors').run settings steps source echo')
    {steps : Nat}
    (hends : ((session.observed flags echoErrors).run settings steps source echo).1 ≠
      .error .unfinished) :
    ∃ steps', SameEnd ((session.observed flags echoErrors).run settings steps source echo)
      ((session.observed flags' echoErrors').run settings steps' source echo') := by
  by_cases hform : (session.observed [] true).formFaults settings source = []
  · have huntraced : settings.untraced.traced = false := rfl
    obtain ⟨steps', ⟨after, hunfinished⟩ | ⟨after, hexhausted⟩ | ⟨after, hexhausted⟩ | hsame⟩ :=
      Eval.silent_ends huntraced steps echo echo' (treesOf settings.levels source) session.machine
    · exact absurd (unfinished_of_unfinished hflags echoErrors settings source hform hlimit
        hunfinished) hends
    · exact absurd (runsOut_of_exhausted hflags echoErrors settings source hform hexhausted)
        hlimit
    · exact absurd (runsOut_of_exhausted hflags' echoErrors' settings source hform hexhausted)
        hlimit'
    · exact ⟨steps', sameEnd_of_essence hflags hflags' echoErrors echoErrors' settings source hlimit
        hlimit' hsame⟩
  · exact ⟨0, sameEnd_of_faults hflags hflags' echoErrors echoErrors' settings source hform steps 0
      echo echo'⟩

end

/-! ## What is printed -/

/-- Before a text is executed, nothing is printed but what is listed. -/
theorem out_readied (session : Session) {flags : Flags} (h : flags.Unlisted) (echoErrors : Bool)
    (settings : Settings) (source : String) :
    ((session.observed flags echoErrors).readied settings source).machine.console.out =
      session.machine.console.out := by
  have hwatched := (session.observed flags echoErrors).scanned_watched (Text.joinReturns source)
  have htree (ds : List Diagnostic) : (((session.observed flags echoErrors).scanned
      (Text.joinReturns source)).reportAll ds).has .dumpTree = false := by
    rw [(hwatched.trans (reportAll_watched _ ds)).has]
    exact has_observed echoErrors h.2
  rw [readied, dumpTree_of_unwanted (htree _), out_reportAll, out_scanned, dumpTokens,
    has_observed echoErrors h.1, if_neg Bool.false_ne_true]
  rfl

/-- With nothing listed, a run that does not run out prints what the text prints when no steps are
reported. -/
theorem out_observed {session : Session} {flags : Flags} (hflags : flags.Executes)
    (hunlisted : flags.Unlisted) (echoErrors : Bool) (settings : Settings) (source : String)
    (hform : (session.observed [] true).formFaults settings source = []) {echo : Bool}
    (hlimit : ¬RunsOut fun steps ↦
      (session.observed flags echoErrors).run settings steps source echo) (steps : Nat) :
    ((session.observed flags echoErrors).run settings steps source echo).2.machine.console.out =
      (final (Eval.program settings.untraced steps echo (treesOf settings.levels source)
        session.machine)).console.out := by
  have hcoupled : Coupling.heard.Coupled
      ((session.observed flags echoErrors).readied settings source).machine session.machine := by
    have hout := out_readied session hunlisted echoErrors settings source
    rw [((session.observed flags echoErrors).readied_watched settings source).machine] at hout ⊢
    exact Coupling.alongside_coupled _ hout.symm
  obtain ⟨hrun, hwithin⟩ := run_within hflags echoErrors settings source hform hlimit steps
  have hdone := (Coupling.program_exhausted_or_done
    (Coupling.heard_fits ((session.observed flags echoErrors).traced settings)) steps echo
    (treesOf settings.levels source) hcoupled).resolve_left hwithin
  rw [hrun, out_concluded]
  exact hdone.coupled.console.symm

/-- With nothing listed, runs that do not run out print the same. -/
theorem sameOut {session : Session} {flags flags' : Flags} (hflags : flags.Executes)
    (hflags' : flags'.Executes) (hunlisted : flags.Unlisted) (hunlisted' : flags'.Unlisted)
    (echoErrors echoErrors' : Bool) (settings : Settings) (source : String) {echo : Bool}
    (hlimit : ¬RunsOut fun steps ↦
      (session.observed flags echoErrors).run settings steps source echo)
    (hlimit' : ¬RunsOut fun steps ↦
      (session.observed flags' echoErrors').run settings steps source echo) (steps : Nat) :
    ((session.observed flags' echoErrors').run settings steps source echo).2.machine.console.out =
      ((session.observed flags echoErrors).run settings steps source
        echo).2.machine.console.out := by
  by_cases hform : (session.observed [] true).formFaults settings source = []
  · rw [out_observed hflags hunlisted echoErrors settings source hform hlimit,
      out_observed hflags' hunlisted' echoErrors' settings source hform hlimit']
  · rw [run_unexecuted settings steps source echo (has_observed echoErrors hflags.1)
        (not_tooDeepToDump_of_room echoErrors settings source hlimit)
        (stops_observed hflags echoErrors settings source hform),
      run_unexecuted settings steps source echo (has_observed echoErrors' hflags'.1)
        (not_tooDeepToDump_of_room echoErrors' settings source hlimit')
        (stops_observed hflags' echoErrors' settings source hform),
      out_readied session hunlisted, out_readied session hunlisted']

/-- Looking into a run does not influence it.  Whatever the flags are, whether faults are shown and
whether values are, as long as texts are executed at all and room is left for nesting, for writing
trees and for reporting statements, a run that ends comes to the same verdict with the same faults
and leaves the same globals; so if one does not end, neither does the other.  If values are shown in
both runs or in neither, all this is so after any number of steps, and if moreover no tokens or trees
are listed, the same is printed. -/
theorem watching_without_influence (settings : Settings) (session : Session) (source : String)
    {flags flags' : Flags} (hflags : flags.Executes) (hflags' : flags'.Executes)
    (echoErrors echoErrors' echo echo' : Bool) :
    let run steps := (session.observed flags echoErrors).run settings steps source echo
    let run' steps := (session.observed flags' echoErrors').run settings steps source echo'
    ¬RunsOut run → ¬RunsOut run' →
    (∀ steps, (run steps).1 ≠ .error .unfinished → ∃ steps', SameEnd (run steps) (run' steps')) ∧
    (∀ steps, (run' steps).1 ≠ .error .unfinished → ∃ steps', SameEnd (run steps') (run' steps)) ∧
    (echo = echo' → ∀ steps, SameEnd (run steps) (run' steps) ∧
      (flags.Unlisted → flags'.Unlisted →
        (run' steps).2.machine.console.out = (run steps).2.machine.console.out)) := by
  intro run run' hlimit hlimit'
  refine ⟨fun steps hends ↦ ?_, fun steps hends ↦ ?_, ?_⟩
  · exact sameEnd_of_ended hflags hflags' echoErrors echoErrors' settings source echo echo' hlimit
      hlimit' hends
  · obtain ⟨steps', hsame⟩ := sameEnd_of_ended hflags' hflags echoErrors' echoErrors settings source
      echo' echo hlimit' hlimit hends
    exact ⟨steps', hsame.symm⟩
  · rintro rfl steps
    refine ⟨sameEnd_of_essence hflags hflags' echoErrors echoErrors' settings source hlimit hlimit'
      rfl, ?_⟩
    intro hunlisted hunlisted'
    exact sameOut hflags hflags' hunlisted hunlisted' echoErrors echoErrors' settings source hlimit
      hlimit' steps

/-- A function changes a global and then asks for a variable that is not there; once it is run
quietly, and once with every step and value shown. -/
theorem failing_call_watched :
    let session := Session.new [] true false
    let source := "var a = true; fun f(n) \x7b a = n; return b; \x7d a; f(nil);"
    let run (flags : Flags) (echoErrors echo : Bool) (steps : Nat) :=
      (session.observed flags echoErrors).run {} steps source echo
    let quiet := run [] true false
    let shown := run [.trace] false true
    (quiet 20).1.toOption.map Verdict.outcome = some .runtimeError ∧
      ¬RunsOut quiet ∧ ¬RunsOut shown ∧ ¬RunsOut (run [] true true) ∧
      (∃ steps, SameEnd (quiet 20) (shown steps)) ∧ (∃ steps, SameEnd (quiet steps) (shown 20)) ∧
      SameEnd (run [] true true 4) (shown 4) ∧
      (shown 20).2.machine.console.out = (run [] true true 20).2.machine.console.out := by
  intro session source run quiet shown
  have hflags : Flags.Executes [] := by simp [Flags.Executes]
  have hflags' : Flags.Executes [.trace] := by simp [Flags.Executes]
  have hunlisted : Flags.Unlisted [] := by simp [Flags.Unlisted]
  have hunlisted' : Flags.Unlisted [.trace] := by simp [Flags.Unlisted]
  have hfails (flags : Flags) (echoErrors echo : Bool)
      (h : (run flags echoErrors echo 20).1.toOption.map Verdict.outcome = some .runtimeError) :
      (run flags echoErrors echo 20).1 ≠ .error .unfinished ∧
        (run flags echoErrors echo 20).1 ≠ .error .exhausted := by
    constructor <;> intro heq <;> rw [heq] at h <;> cases h
  have hquiet : (quiet 20).1.toOption.map Verdict.outcome = some .runtimeError := by decide +kernel
  obtain ⟨hends, hdumps⟩ := hfails [] true false hquiet
  obtain ⟨hends', hdumps'⟩ := hfails [.trace] false true (by decide +kernel)
  obtain ⟨hends'', hdumps''⟩ := hfails [] true true (by decide +kernel)
  have hlimit : ¬RunsOut quiet := not_runsOut hends hdumps (by decide +kernel)
  have hlimit' : ¬RunsOut shown := not_runsOut hends' hdumps' (by decide +kernel)
  have hlimit'' : ¬RunsOut (run [] true true) := not_runsOut hends'' hdumps'' (by decide +kernel)
  obtain ⟨hforth, hback, -⟩ := watching_without_influence {} session source hflags hflags' true false
    false true hlimit hlimit'
  obtain ⟨-, -, hsame⟩ := watching_without_influence {} session source hflags hflags' true false true
    true hlimit'' hlimit'
  exact ⟨hquiet, hlimit, hlimit', hlimit'', hforth 20 hends, hback 20 hends', (hsame rfl 4).1,
    (hsame rfl 20).2 hunlisted hunlisted'⟩

-- A limit can be met by watching alone: a function that is never called is written out when its
-- declaration is reported.
example :
    let run (flags : Flags) := ((Session.new [] true false).observed flags true).run {levels := 20} 20
      "fun f() \x7b return 1 + 1 + 1 + 1 + 1 + 1; \x7d" false
    (run []).1.toOption.map Verdict.outcome = some .success ∧
      (run [.trace]).1.toOption.map Verdict.outcome = some .fatalError := by
  decide +kernel

end Session

end Lox
