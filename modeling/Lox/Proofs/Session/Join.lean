import Lox.Proofs.Machine.Steps
import Lox.Proofs.Relocation.Execute
import Lox.Proofs.Scan.Join
import Lox.Proofs.Session.Faultless
import Lox.Proofs.Session.Report
import Mathlib

/-!
# Running a text in two parts

Running one text and then another on the same session comes to the same as running both at once,
with a line feed between them.  The tokens of the second text are then found in other places, so its
trees are the relocated trees; and the machine that the first text leaves behind is at rest, so it
is ready for the second text in the middle of a run as well as between two runs.
-/

namespace Lox

open Stateful Lox.Parser Grammar

/-- The form of two texts that are joined has no faults if that of the two has none, unless no room
is left for parsing them together; and the trees are those of the one and then those of the other,
relocated. -/
theorem Faultless.joined {levels : Nat} {first second : String} (hfirst : Faultless levels first)
    (hsecond : Faultless levels second)
    (hlevels : ¬Exhausted (parse levels
      (scan (Text.joinReturns (first ++ "\n" ++ second))).tokens)) :
    Faultless levels (first ++ "\n" ++ second) ∧
      ∃ r, treesOf levels (first ++ "\n" ++ second) =
        treesOf levels first ++ (treesOf levels second).map (Stmt.relocate r) := by
  obtain ⟨herrors, r, htokens⟩ := scan_joinReturns hfirst.scanned hsecond.scanned
  have hprogram : Program (scan (Text.joinReturns (first ++ "\n" ++ second))).tokens
      (treesOf levels first ++ (treesOf levels second).map (Stmt.relocate r)) := by
    obtain ⟨before, mark, hbefore, -, -⟩ := endsOnce_scan (Text.joinReturns first)
    have hprogram := hfirst.program
    rw [hbefore] at hprogram
    rw [htokens, hbefore, List.dropLast_concat]
    exact hprogram.append (hsecond.program.relocate r)
  have hparse := parse_eq_of_program hprogram hlevels
  constructor
  · constructor
    · exact herrors
    · rw [hparse]
      rfl
  · refine ⟨r, ?_⟩
    rw [treesOf, hparse]

/-! ## What two runs have in common -/

/-- Values that are the same, where functions are compared by name and parameters. -/
def Value.Alike : Value → Value → Prop
  | .atom a, .atom b => a = b
  | .closure f, .closure g => f.name = g.name ∧ f.params = g.params
  | .native f, .native g => f = g
  | _, _ => False

/-- Faults of the same category with the same message, found during calls of the same functions. -/
structure Diagnostic.Alike (d e : Diagnostic) : Prop where
  category : d.category = e.category
  message : d.message = e.message
  calls : d.backtrace.map (List.map Frame.name) = e.backtrace.map (List.map Frame.name)

/-- Two runs come to the same verdict, or neither comes to one, for the same reason. -/
def EndAlike : Except Escape Verdict → Except Escape Verdict → Prop
  | .ok v, .ok w => v.outcome = w.outcome ∧ List.Forall₂ Diagnostic.Alike v.errors w.errors
  | .error (.returned x), .error (.returned y) => x.Alike y
  | .error (.faulted f), .error (.faulted g) => f = g
  | .error .unfinished, .error .unfinished => True
  | _, _ => False

/-- Two runs end alike, and after them the same has been printed and the same globals are declared,
with the same values. -/
structure Session.Agree (a b : Except Escape Verdict × Session) : Prop where
  ends : EndAlike a.1 b.1
  prints : a.2.machine.console.out = b.2.machine.console.out
  globals : List.Forall₂ (fun x y ↦ x.1 = y.1 ∧ x.2.Alike y.2) a.2.globals b.2.globals

theorem Value.alike_of_relocate {r : Relocation} {x y : Value}
    (h : x.relocate r = y.relocate r) : x.Alike y := by
  cases x with
  | atom a =>
    cases y with
    | atom b => exact Value.atom.inj h
    | closure | native => cases h
  | closure f =>
    cases y with
    | closure g =>
      have hname := congrArg Closure.name (Value.closure.inj h)
      have hparams := congrArg Closure.params (Value.closure.inj h)
      exact ⟨hname, hparams⟩
    | atom | native => cases h
  | native f =>
    cases y with
    | native g => exact Value.native.inj h
    | atom | closure => cases h

theorem Diagnostic.alike_of_relocate {r : Relocation} {d e : Diagnostic}
    (h : d.relocate r = e.relocate r) : d.Alike e := by
  have hcalls (d : Diagnostic) : (d.relocate r).backtrace.map (List.map Frame.name) =
      d.backtrace.map (List.map Frame.name) := by
    cases hbacktrace : d.backtrace with
    | none => simp [relocate, hbacktrace]
    | some frames => simp [relocate, hbacktrace, Frame.relocate]
  have hcategory := congrArg Diagnostic.category h
  have hmessage := congrArg Diagnostic.message h
  refine ⟨hcategory, hmessage, ?_⟩
  rw [← hcalls d, ← hcalls e, h]

theorem Scopes.listing_relocate (r : Relocation) (scopes : Scopes) (id : ScopeId) :
    (scopes.relocate r).listing id = (scopes.listing id).map (Scope.relocateBinding r) := by
  unfold listing
  rw [getElem?_relocate]
  cases scopes.all[id]? with
  | none => rfl
  | some scope =>
    symm
    apply List.map_mergeSort
    intros
    rfl

namespace Session

/-- Machines that differ only in places have the same globals. -/
theorem globals_alike {r : Relocation} {a b : Session}
    (h : a.machine.relocate r = b.machine.relocate r) :
    List.Forall₂ (fun x y ↦ x.1 = y.1 ∧ x.2.Alike y.2) a.globals b.globals := by
  have hscopes := congrArg Machine.scopes h
  have hglobals := congrArg Machine.globals h
  change a.machine.scopes.relocate r = b.machine.scopes.relocate r at hscopes
  change a.machine.globals = b.machine.globals at hglobals
  have hlistings : a.globals.map (Scope.relocateBinding r) =
      b.globals.map (Scope.relocateBinding r) := by
    rw [globals, globals, ← Scopes.listing_relocate, ← Scopes.listing_relocate, hscopes, hglobals]
  rw [← List.forall₂_eq_eq_eq, List.forall₂_map_left_iff, List.forall₂_map_right_iff] at hlistings
  apply hlistings.imp
  intro x y hxy
  have hname := congrArg Prod.fst hxy
  have hvalue := congrArg Prod.snd hxy
  exact ⟨hname, Value.alike_of_relocate hvalue⟩

/-! ## Conclusions -/

theorem verdict_reportAll {session : Session} (h : session.reporter.errors = #[]) (d : Diagnostic) :
    (session.reportAll [d]).verdict = .ofErrors [d] := by
  change Verdict.ofErrors (session.reporter.errors.push d).toList = _
  rw [h]
  rfl

/-- The end of an execution with a fault that is reported. -/
theorem reportAll_agree {a b : Session} (ha : a.reporter.errors = #[])
    (hb : b.reporter.errors = #[]) {r : Relocation}
    (hmachine : a.machine.relocate r = b.machine.relocate r) {d e : Diagnostic} (hde : d.Alike e) :
    Agree (.ok (a.reportAll [d]).verdict, a.reportAll [d])
      (.ok (b.reportAll [e]).verdict, b.reportAll [e]) where
  ends := by
    rw [verdict_reportAll ha, verdict_reportAll hb]
    constructor
    · simp [Verdict.ofErrors, Outcome.ofErrors, hde.category]
    · exact .cons hde .nil
  prints := by
    have hout := congrArg (fun m : Machine ↦ m.console.out) hmachine
    change (a.reportAll [d]).machine.console.out = (b.reportAll [e]).machine.console.out
    rw [out_reportAll, out_reportAll]
    exact hout
  globals := by
    have hglobals := globals_alike hmachine
    exact hglobals

/-- The end of an execution that is not reported. -/
theorem Agree.of_ends {a b : Session} {r : Relocation}
    (hmachine : a.machine.relocate r = b.machine.relocate r) {end' end'' : Except Escape Verdict}
    (hends : EndAlike end' end'') : Agree (end', a) (end'', b) where
  ends := hends
  prints := by
    have hout := congrArg (fun m : Machine ↦ m.console.out) hmachine
    exact hout
  globals := globals_alike hmachine

theorem concluded_agree {reporter reporter' : Reporter} (h : reporter.errors = #[])
    (h' : reporter'.errors = #[]) {r : Relocation} {result result' : EStateM.Result Halt Machine Unit}
    (himage : image (Machine.relocate r) (Halt.relocate r) id result =
      image (Machine.relocate r) (Halt.relocate r) id result') :
    Agree (concluded reporter result) (concluded reporter' result') := by
  have hidle {m m' : Machine} (hm : m.relocate r = m'.relocate r) :
      m.idle.relocate r = m'.idle.relocate r := by
    rw [Machine.idle_relocate, Machine.idle_relocate, hm]
  cases result with
  | ok a m =>
    cases result' with
    | error halt' m' => cases himage
    | ok a' m' =>
      obtain ⟨-, hm⟩ := EStateM.Result.ok.inj himage
      apply Agree.of_ends (hidle hm)
      rw [verdict, verdict, h, h']
      exact ⟨rfl, .nil⟩
  | error halt m =>
    cases result' with
    | ok a' m' => cases himage
    | error halt' m' =>
      obtain ⟨hhalt, hm⟩ := EStateM.Result.error.inj himage
      cases halt with
      | failed d =>
        cases halt' with
        | failed e =>
          have hde := Diagnostic.alike_of_relocate (Halt.failed.inj hhalt)
          exact reportAll_agree h h' (hidle hm) hde
        | returned | faulted | exhausted | unfinished => cases hhalt
      | exhausted =>
        cases halt' with
        | exhausted => exact reportAll_agree h h' (hidle hm) ⟨rfl, rfl, rfl⟩
        | returned | faulted | failed | unfinished => cases hhalt
      | returned x =>
        cases halt' with
        | returned y => exact .of_ends (hidle hm) (Value.alike_of_relocate (Halt.returned.inj hhalt))
        | failed | faulted | exhausted | unfinished => cases hhalt
      | faulted fault =>
        cases halt' with
        | faulted fault' => exact .of_ends (hidle hm) (Halt.faulted.inj hhalt)
        | returned | failed | exhausted | unfinished => cases hhalt
      | unfinished =>
        cases halt' with
        | unfinished => exact .of_ends (hidle hm) trivial
        | returned | failed | faulted | exhausted => cases hhalt

theorem outcome_reportAll_ne {session : Session} (h : session.reporter.errors = #[])
    (d : Diagnostic) : (session.reportAll [d]).verdict.outcome ≠ .success := by
  rw [verdict_reportAll h]
  simp only [Verdict.ofErrors, Outcome.ofErrors]
  split
  · nofun
  · split
    · nofun
    · nofun

/-- A run that succeeds has executed its program to the end. -/
theorem ok_of_success {reporter : Reporter} (h : reporter.errors = #[])
    {result : EStateM.Result Halt Machine Unit} {verdict : Verdict} {session : Session}
    (hconcluded : concluded reporter result = (.ok verdict, session))
    (hsuccess : verdict.outcome = .success) :
    ∃ m, result = .ok () m ∧ session = ⟨reporter, m.idle⟩ := by
  cases result with
  | ok a m =>
    obtain ⟨-, hsession⟩ := Prod.mk.inj hconcluded
    exact ⟨m, rfl, hsession.symm⟩
  | error halt m =>
    obtain ⟨hend, -⟩ := Prod.mk.inj hconcluded
    cases halt with
    | failed d =>
      rw [← Except.ok.inj hend] at hsuccess
      exact absurd hsuccess (outcome_reportAll_ne h d)
    | exhausted =>
      rw [← Except.ok.inj hend] at hsuccess
      exact absurd hsuccess (outcome_reportAll_ne h _)
    | returned | faulted | unfinished => cases hend

end Session

/-- A program that succeeds can be followed by another. -/
theorem Eval.program_append {settings : Settings} {steps : Nat} {first : List Stmt}
    {m after : Machine} (h : program settings steps false first m = .ok () after)
    (second : List Stmt) :
    program settings steps false (first ++ second) m = program settings steps false second after := by
  induction first generalizing m with
  | nil =>
    cases h
    rfl
  | cons s rest ih =>
    obtain ⟨_, between, hs, hrest⟩ := bind_eq_ok h
    calc program settings steps false (s :: rest ++ second) m
        = program settings steps false (rest ++ second) between := bind_of_ok hs _
      _ = program settings steps false second after := ih hrest

/-- Programs that differ only in places do the same, up to places, to the same machine. -/
theorem Eval.program_relocate (settings : Settings) (steps : Nat) (statements : List Stmt)
    (r : Relocation) (m : Machine) :
    image (Machine.relocate .forget) (Halt.relocate .forget) id
        (program settings.untraced steps false statements m) =
      image (Machine.relocate .forget) (Halt.relocate .forget) id
        (program settings.untraced steps false (statements.map (Stmt.relocate r)) m) := by
  have hforget : (statements.map (Stmt.relocate r)).map (Stmt.relocate .forget) =
      statements.map (Stmt.relocate .forget) := by
    simp [Function.comp_def, Relocation.andThen_forget]
  have hleft := program_follows .forget settings steps false statements m
  have hright := program_follows .forget settings steps false
    (statements.map (Stmt.relocate r)) m
  rw [hforget] at hright
  exact hleft.symm.trans hright

/-- Running a text in two parts agrees with running the whole.  The machine is at rest between all
runs of a session.  From any session at rest and without flags, if the form of two texts has no
faults, if there is room for parsing them together, and if the first runs with success, then running
the second text after it agrees with running both at once, joined by a line feed, however many more
steps are allowed. -/
theorem Session.joined_run_agrees (settings : Settings) :
    (∀ (flags : Flags) (echoErrors coloured : Bool) (history : List Session.Step),
      ((Session.new flags echoErrors coloured).takeAll settings history).machine.AtRest) ∧
    ∀ (session : Session) (steps more : Nat) (first second : String), session.machine.AtRest →
      session.flags = [] → Faultless settings.levels first → Faultless settings.levels second →
      ¬Exhausted (parse settings.levels
        (scan (Text.joinReturns (first ++ "\n" ++ second))).tokens) →
      ∀ verdict between, session.run settings steps first false = (.ok verdict, between) →
        verdict.outcome = .success → steps ≤ more →
        Agree (between.run settings more second false)
          (session.run settings more (first ++ "\n" ++ second) false) := by
  constructor
  · intro flags echoErrors coloured history
    exact takeAll_atRest settings ⟨rfl, rfl⟩ history
  · intro session steps more first second hrest hflags hfirst hsecond hlevels verdict between hrun
      hsuccess hmore
    obtain ⟨hjoined, r, htrees⟩ := hfirst.joined hsecond hlevels
    rw [run_of_faultless hflags hfirst] at hrun
    obtain ⟨m, hprogram, rfl⟩ := ok_of_success rfl hrun hsuccess
    replace hprogram := (Eval.program_continues hmore false _).ok hprogram
    -- The first program leaves the machine at rest, so that making it idle changes nothing.
    have hrestored := Machine.restored_evolution.program_moves settings.untraced more false
      (treesOf settings.levels first) session.machine
    rw [hprogram] at hrestored
    have hidle : m.idle = m := (hrestored.atRest hrest).idle_eq
    have hbetween : flags ⟨session.started first, m.idle⟩ = [] := hflags
    rw [run_of_faultless hbetween hsecond, run_of_faultless hflags hjoined, htrees,
      Eval.program_append hprogram]
    -- Both runs now execute the second program on one machine, with its tokens in other places.
    apply concluded_agree rfl rfl (r := .forget)
    dsimp only
    rw [hidle]
    exact Eval.program_relocate settings more _ r m

/-- `f` fails when it is called, which only the second text does; the first text ends with a comment
and a carriage return. -/
theorem Session.failing_call_agrees :
    let settings : Settings := { levels := 30 }
    let first := "fun f()\x7bg;\x7d//\r"
    let second := "f();"
    let session := (Session.new [.trace] true false).takeAll settings [.setFlags []]
    session.machine.AtRest ∧ session.flags = [] ∧ Faultless settings.levels first ∧
      Faultless settings.levels second ∧
      ¬Exhausted (parse settings.levels
        (scan (Text.joinReturns (first ++ "\n" ++ second))).tokens) ∧
      ∃ verdict between, session.run settings 9 first false = (.ok verdict, between) ∧
        verdict.outcome = .success ∧
        Agree (between.run settings 12 second false)
          (session.run settings 12 (first ++ "\n" ++ second) false) := by
  intro settings first second session
  obtain ⟨hrest, hagrees⟩ := joined_run_agrees settings
  have hsession : session.machine.AtRest := hrest _ _ _ _
  have hparse : parse settings.levels (scan (Text.joinReturns first)).tokens =
      ⟨[.function ⟨.identifier, "f", .nil, 1, 4⟩ []
        [.expression (.var ⟨.identifier, "g", .nil, 1, 8⟩)]], [], none⟩ := by
    cbv
  have hfirst : Faultless settings.levels first := ⟨by cbv, by rw [hparse]; rfl⟩
  have hsecond : Faultless settings.levels second := ⟨by cbv, by cbv⟩
  have hlevels : ¬Exhausted (parse settings.levels
      (scan (Text.joinReturns (first ++ "\n" ++ second))).tokens) := by
    have hstopped : (parse settings.levels
        (scan (Text.joinReturns (first ++ "\n" ++ second))).tokens).stopped = none := by cbv
    rintro ⟨rest, hdeep⟩
    rw [hstopped] at hdeep
    cases hdeep
  have hrun : ∃ between, session.run settings 9 first false = (.ok ⟨.success, []⟩, between) := by
    rw [run_of_faultless rfl hfirst, treesOf, hparse]
    unfold Eval.program Eval.stmt
    exact ⟨_, rfl⟩
  obtain ⟨between, hrun⟩ := hrun
  exact ⟨hsession, rfl, hfirst, hsecond, hlevels, _, between, hrun, rfl,
    hagrees session 9 12 first second hsession rfl hfirst hsecond hlevels _ between hrun rfl
      (by decide)⟩

end Lox
