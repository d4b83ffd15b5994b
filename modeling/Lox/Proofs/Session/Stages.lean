import Lox.Proofs.Machine.Steps
import Lox.Proofs.Parse.Safety
import Lox.Proofs.Scan.Tiles
import Lox.Proofs.Session.Report

/-!
# The stages of a run

Before anything is executed, a text is scanned and parsed and what is wrong with it is reported.
This is the business of the reporter and the console alone: the rest of the machine is neither
looked at nor changed.  Then the trees are executed, unless there are faults or it is not asked for.
A run ends early if its trees are to be written and are too deep for that.
-/

namespace Lox

open Stateful Lox.Parser

theorem hasEnd_scan (source : String) : HasEnd (scan source).tokens := by
  rw [scan_tokens]
  exact ⟨_, List.mem_append_right _ List.mem_cons_self, rfl⟩

/-- Tokens whose end is marked do not run out. -/
theorem ranOut_eq_false {tokens : List Token} (h : HasEnd tokens) (levels : Nat) :
    (parse levels tokens).ranOut = false := by
  unfold Parsed.ranOut
  split
  · rename_i rest hstopped
    cases ((parse_safe h levels).2 _ _ hstopped).1
  · rename_i hstopped
    exact absurd ((parse_safe h levels).2 _ _ hstopped).2 not_hasEnd_nil
  · rfl

/-- No token is read beyond a marked end. -/
theorem pastEnd_eq_false {tokens : List Token} (h : HasEnd tokens) (levels : Nat) :
    (parse levels tokens).pastEnd = false := by
  unfold Parsed.pastEnd
  cases hstopped : (parse levels tokens).stopped with
  | none => rfl
  | some stop =>
    obtain ⟨cause, rest⟩ := stop
    obtain ⟨rfl, -⟩ := (parse_safe h levels).2 cause rest hstopped
    rfl

structure Faultless (levels : Nat) (source : String) : Prop where
  scanned : (scan (Text.joinReturns source)).errors = []
  parsed : (parse levels (scan (Text.joinReturns source)).tokens).diagnostics = []

def treesOf (levels : Nat) (source : String) : List Stmt :=
  (parse levels (scan (Text.joinReturns source)).tokens).statements

namespace Session

/-! ## Scanning and parsing -/

def scanned (session : Session) (text : String) : Session :=
  ({ session with reporter := { session.reporter.reset with source := .ofString text } }.reportAll
    ((scan text).errors.map LexicalError.diagnostic)).dumpTokens (scan text).tokens

theorem scanned_watched (session : Session) (text : String) :
    session.Watched (session.scanned text) := by
  have hstarted : session.Watched
      { session with reporter := { session.reporter.reset with source := .ofString text } } :=
    ⟨rfl, rfl, rfl, rfl⟩
  exact hstarted.trans ((reportAll_watched _ _).trans (dumpTokens_watched _ _))

theorem errors_scanned (session : Session) (text : String) :
    (session.scanned text).reporter.errors.toList =
      (scan text).errors.map LexicalError.diagnostic := by
  rw [scanned, reporter_dumpTokens, errors_reportAll]
  rfl

theorem out_scanned (session : Session) (text : String) :
    (session.scanned text).machine.console.out =
      (session.dumpTokens (scan text).tokens).machine.console.out := by
  unfold scanned
  apply out_dumpTokens
  · rw [flags, reporter_reportAll]
    rfl
  · rw [out_reportAll]

/-- The faults in the form of a text: those of its characters, and those of its tokens unless they
are not to be parsed. -/
def formFaults (settings : Settings) (source : String) (session : Session) : List Diagnostic :=
  (scan (Text.joinReturns source)).errors.map LexicalError.diagnostic ++
    if session.has .noParse then []
    else (parse settings.levels (scan (Text.joinReturns source)).tokens).diagnostics

def readied (settings : Settings) (source : String) (session : Session) : Session :=
  let parsed := parse settings.levels (scan (Text.joinReturns source)).tokens
  (((session.scanned (Text.joinReturns source)).reportAll parsed.diagnostics).dumpTree settings
    parsed.statements).2

theorem readied_watched (settings : Settings) (source : String) (session : Session) :
    session.Watched (session.readied settings source) :=
  (session.scanned_watched _).trans ((reportAll_watched _ _).trans (dumpTree_watched _ _ _))

/-- What has been found before execution are the faults of form. -/
theorem errors_readied (settings : Settings) (source : String) {session : Session}
    (h : session.has .noParse = false) :
    (session.readied settings source).reporter.errors.toList =
      session.formFaults settings source := by
  rw [readied, reporter_dumpTree, errors_reportAll, errors_scanned, formFaults, h]
  rfl

/-- The trees of a text without faults of form are to be written, and for one of them there are not
levels enough. -/
structure TooDeepToDump (settings : Settings) (source : String) (session : Session) : Prop where
  dumps : session.has .dumpTree = true
  parses : session.has .noParse = false
  form : session.formFaults settings source = []
  deep : ∃ s ∈ treesOf settings.levels source, settings.levels < s.textLevels

instance (settings : Settings) (source : String) (session : Session) :
    Decidable (session.TooDeepToDump settings source) :=
  decidable_of_iff (session.has .dumpTree = true ∧ session.has .noParse = false ∧
      session.formFaults settings source = [] ∧
      ∃ s ∈ treesOf settings.levels source, settings.levels < s.textLevels)
    ⟨fun ⟨hdumps, hparses, hform, hdeep⟩ ↦ ⟨hdumps, hparses, hform, hdeep⟩,
      fun h ↦ ⟨h.dumps, h.parses, h.form, h.deep⟩⟩

/-- A text is executed when it is run: neither parsing nor execution is turned off, its form has no
faults, and its trees can be written if that is asked for. -/
structure Executes (settings : Settings) (source : String) (session : Session) : Prop where
  parses : session.has .noParse = false
  room : ¬session.TooDeepToDump settings source
  goes : ((session.readied settings source).stops || session.has .noExecute) = false

instance (settings : Settings) (source : String) (session : Session) :
    Decidable (session.Executes settings source) :=
  decidable_of_iff (session.has .noParse = false ∧ ¬session.TooDeepToDump settings source ∧
      ((session.readied settings source).stops || session.has .noExecute) = false)
    ⟨fun ⟨hparses, hroom, hgoes⟩ ↦ ⟨hparses, hroom, hgoes⟩, fun h ↦ ⟨h.parses, h.room, h.goes⟩⟩

theorem Executes.errors_eq {settings : Settings} {source : String} {session : Session}
    (h : session.Executes settings source) :
    (session.readied settings source).reporter.errors.toList = [] :=
  errors_of_goes h.goes

theorem Executes.faultless {settings : Settings} {source : String} {session : Session}
    (h : session.Executes settings source) : Faultless settings.levels source := by
  have hform := (errors_readied settings source h.parses).symm.trans h.errors_eq
  rw [formFaults, h.parses] at hform
  obtain ⟨hscanned, hparsed⟩ := List.append_eq_nil_iff.mp hform
  exact ⟨List.map_eq_nil_iff.mp hscanned, hparsed⟩

theorem tooDeepToDump_congr (settings settings' : Settings) (source : String) {a b : Session}
    (hlevels : settings'.levels = settings.levels) (h : ∀ flag, b.has flag = a.has flag) :
    b.TooDeepToDump settings source ↔ a.TooDeepToDump settings' source := by
  have hform : b.formFaults settings source = a.formFaults settings' source := by
    rw [formFaults, formFaults, h, hlevels]
  constructor
  · intro hdeep
    exact ⟨h .dumpTree ▸ hdeep.dumps, h .noParse ▸ hdeep.parses, hform ▸ hdeep.form,
      hlevels ▸ hdeep.deep⟩
  · intro hdeep
    exact ⟨h .dumpTree ▸ hdeep.dumps, h .noParse ▸ hdeep.parses, hform ▸ hdeep.form,
      hlevels ▸ hdeep.deep⟩

theorem tooDeep_iff (settings : Settings) (source : String) {session : Session}
    (h : session.has .noParse = false) :
    ((session.scanned (Text.joinReturns source)).reportAll
      (parse settings.levels (scan (Text.joinReturns source)).tokens).diagnostics).TooDeep settings
        (treesOf settings.levels source) ↔ session.TooDeepToDump settings source := by
  have hwatched := (session.scanned_watched (Text.joinReturns source)).trans
    (reportAll_watched _ (parse settings.levels (scan (Text.joinReturns source)).tokens).diagnostics)
  have hfaulty : ∀ reporter : Reporter, reporter.faulty = false ↔ reporter.errors.toList = [] := by
    intro reporter
    simp [Reporter.faulty]
  have hform : session.formFaults settings source = [] ↔
      ((session.scanned (Text.joinReturns source)).reportAll (parse settings.levels
        (scan (Text.joinReturns source)).tokens).diagnostics).reporter.errors.toList = [] := by
    rw [errors_reportAll, errors_scanned, formFaults, h]
    rfl
  rw [TooDeep, hwatched.has, hfaulty, ← hform]
  constructor
  · rintro ⟨hdumps, hnone, hdeep⟩
    exact ⟨hdumps, h, hnone, hdeep⟩
  · intro hdeep
    exact ⟨hdeep.dumps, hdeep.form, hdeep.deep⟩

/-! ## Another machine -/

/-- The session with the rest of its machine replaced. -/
def onto (session : Session) (m : Machine) : Session :=
  ⟨session.reporter, { m with console := session.machine.console }⟩

theorem reportAll_onto (session : Session) (m : Machine) (ds : List Diagnostic) :
    (session.onto m).reportAll ds = (session.reportAll ds).onto m :=
  rfl

theorem dumpTokens_onto (session : Session) (m : Machine) (tokens : List Token) :
    (session.onto m).dumpTokens tokens = (session.dumpTokens tokens).onto m := by
  have hhas (flag : Flag) : (session.onto m).has flag = session.has flag := rfl
  unfold dumpTokens
  rw [hhas, hhas]
  split
  · split
    · rfl
    · rfl
  · rfl

theorem dumpTree_onto (session : Session) (m : Machine) (settings : Settings)
    (statements : List Stmt) : ((session.onto m).dumpTree settings statements).2 =
      (session.dumpTree settings statements).2.onto m := by
  have hasks : ((session.onto m).has .dumpTree && !(session.onto m).reporter.faulty) =
      (session.has .dumpTree && !session.reporter.faulty) := rfl
  unfold dumpTree
  rw [hasks]
  split
  · dsimp only
    split
    · rfl
    · rfl
  · rfl

/-- Scanning depends on the flags, on whether faults are shown, and on the console. -/
theorem scanned_onto {a b : Session} (hflags : b.flags = a.flags)
    (hecho : b.reporter.echo = a.reporter.echo) (hconsole : b.machine.console = a.machine.console)
    (text : String) : b.scanned text = (a.scanned text).onto b.machine := by
  obtain ⟨⟨flags, echo, _, _⟩, m⟩ := a
  obtain ⟨⟨flags', echo', _, _⟩, m'⟩ := b
  change flags' = flags at hflags
  change echo' = echo at hecho
  change m'.console = m.console at hconsole
  subst hflags hecho
  have hbegun : (⟨{ flags := flags', echo := echo', source := .ofString text }, m'⟩ : Session) =
      onto ⟨{ flags := flags', echo := echo', source := .ofString text }, m⟩ m' := by
    rw [onto, ← hconsole]
  change (reportAll ⟨{ flags := flags', echo := echo', source := .ofString text }, m'⟩ _).dumpTokens
    _ = _
  rw [hbegun, reportAll_onto, dumpTokens_onto]
  rfl

theorem readied_onto {a b : Session} (hflags : b.flags = a.flags)
    (hecho : b.reporter.echo = a.reporter.echo) (hconsole : b.machine.console = a.machine.console)
    (settings : Settings) (source : String) :
    b.readied settings source = (a.readied settings source).onto b.machine := by
  unfold readied
  dsimp only
  rw [scanned_onto hflags hecho hconsole, reportAll_onto, dumpTree_onto]

/-! ## Execution -/

def traced (settings : Settings) (session : Session) : Settings :=
  { settings with traced := session.has .trace }

/-- What a run comes to when its execution has ended. -/
def concluded (reporter : Reporter) :
    EStateM.Result Halt Machine Unit → Except Escape Verdict × Session
  | .ok () machine => (.ok (verdict ⟨reporter, machine.idle⟩), ⟨reporter, machine.idle⟩)
  | .error halt machine =>
    let session : Session := ⟨reporter, machine.idle⟩
    match halt with
    | .failed d => (.ok (session.reportAll [d]).verdict, session.reportAll [d])
    | .exhausted =>
      (.ok (session.reportAll [.overflow]).verdict, session.reportAll [.overflow])
    | .returned value => (.error (.returned value), session)
    | .faulted fault => (.error (.faulted fault), session)
    | .unfinished => (.error .unfinished, session)

/-- After an execution the machine is idle, and a fault may be reported. -/
theorem concluded_watched (reporter : Reporter) (result : EStateM.Result Halt Machine Unit) :
    Watched ⟨reporter, (final result).idle⟩ (concluded reporter result).2 := by
  cases result with
  | ok _ m => exact ⟨rfl, rfl, rfl, rfl⟩
  | error halt m =>
    cases halt with
    | failed d => exact reportAll_watched ⟨reporter, m.idle⟩ [d]
    | exhausted => exact reportAll_watched ⟨reporter, m.idle⟩ [.overflow]
    | returned | faulted | unfinished => exact ⟨rfl, rfl, rfl, rfl⟩

/-- An execution that leaves no room is reported. -/
theorem fst_concluded_ne_exhausted (reporter : Reporter)
    (result : EStateM.Result Halt Machine Unit) :
    (concluded reporter result).1 ≠ .error .exhausted := by
  cases result with
  | ok _ m => exact nofun
  | error halt m => cases halt <;> exact nofun

/-- Faults are not written to the program's stream. -/
theorem out_concluded (reporter : Reporter) (result : EStateM.Result Halt Machine Unit) :
    (concluded reporter result).2.machine.console.out = (final result).console.out := by
  cases result with
  | ok _ m => rfl
  | error halt m =>
    cases halt with
    | failed d => exact out_reportAll ⟨reporter, m.idle⟩ [d]
    | exhausted => exact out_reportAll ⟨reporter, m.idle⟩ [.overflow]
    | returned | faulted | unfinished => rfl

theorem execute_eq (settings : Settings) (steps : Nat) (echo : Bool) (statements : List Stmt)
    (session : Session) :
    (match session.execute settings steps echo statements with
      | (some escape, after) => (.error escape, after)
      | (none, after) => (.ok after.verdict, after)) =
      concluded session.reporter
        (Eval.program (session.traced settings) steps echo statements session.machine) := by
  unfold execute traced has flags
  dsimp only
  cases Eval.program { settings with traced := session.reporter.flags.contains .trace } steps echo
    statements session.machine with
  | ok _ machine => rfl
  | error halt machine => cases halt <;> rfl

/-- What executing a program leaves behind. -/
theorem execute_snd (settings : Settings) (steps : Nat) (echo : Bool) (statements : List Stmt)
    (session : Session) :
    (session.execute settings steps echo statements).2 =
      (concluded session.reporter
        (Eval.program (session.traced settings) steps echo statements session.machine)).2 := by
  rw [← execute_eq]
  rcases session.execute settings steps echo statements with ⟨_ | escape, after⟩
  · rfl
  · rfl

/-! ## Runs -/

/-- A run scans a text, parses it unless that is not asked for, and goes on with the trees. -/
theorem run_eq (settings : Settings) (steps : Nat) (source : String) (echo : Bool)
    (session : Session) :
    session.run settings steps source echo =
      let text := Text.joinReturns source
      if (session.scanned text).has .noParse then
        (.ok (session.scanned text).verdict, session.scanned text)
      else (session.scanned text).runParsed settings steps echo
        (parse settings.levels (scan text).tokens) := by
  have hend := hasEnd_scan (Text.joinReturns source)
  unfold run
  dsimp only
  rw [ranOut_eq_false hend, pastEnd_eq_false hend]
  rfl

section

variable {session : Session} (settings : Settings) (steps : Nat) (source : String) (echo : Bool)

/-- A text that is not to be parsed is only scanned. -/
theorem run_unparsed (hparse : session.has .noParse = true) :
    session.run settings steps source echo =
      (.ok (session.scanned (Text.joinReturns source)).verdict,
        session.scanned (Text.joinReturns source)) := by
  rw [run_eq]
  dsimp only
  rw [(session.scanned_watched _).has, hparse, if_pos rfl]

/-- A run ends when trees are written that are too deep. -/
theorem run_undumped (hdeep : session.TooDeepToDump settings source) :
    session.run settings steps source echo =
      (.error .exhausted, session.readied settings source) := by
  rw [run_eq]
  dsimp only
  rw [(session.scanned_watched _).has, hdeep.parses, if_neg Bool.false_ne_true, runParsed]
  obtain ⟨write, -, ⟨hdumped, hroom⟩ | ⟨hdumped, -⟩⟩ := dumpTree_cases settings
    (treesOf settings.levels source) ((session.scanned (Text.joinReturns source)).reportAll
      (parse settings.levels (scan (Text.joinReturns source)).tokens).diagnostics)
  · exact absurd ((tooDeep_iff settings source hdeep.parses).mpr hdeep) hroom
  · rw [readied]
    change (reportAll _ _).dumpTree settings (parse _ _).statements = _ at hdumped
    rw [hdumped]

theorem run_parsed (hparse : session.has .noParse = false)
    (hroom : ¬session.TooDeepToDump settings source) :
    session.run settings steps source echo =
      if ((session.readied settings source).stops || session.has .noExecute) = true then
        (.ok (session.readied settings source).verdict, session.readied settings source)
      else concluded (session.readied settings source).reporter
        (Eval.program (session.traced settings) steps echo (treesOf settings.levels source)
          (session.readied settings source).machine) := by
  have hwatched := session.readied_watched settings source
  have htraced : (session.readied settings source).traced settings = session.traced settings := by
    rw [traced, traced, hwatched.has]
  rw [run_eq]
  dsimp only
  rw [(session.scanned_watched _).has, hparse, if_neg Bool.false_ne_true, runParsed,
    ← htraced, ← hwatched.has .noExecute, ← execute_eq]
  obtain ⟨write, -, ⟨hdumped, -⟩ | ⟨-, hdeep⟩⟩ := dumpTree_cases settings
    (treesOf settings.levels source) ((session.scanned (Text.joinReturns source)).reportAll
      (parse settings.levels (scan (Text.joinReturns source)).tokens).diagnostics)
  · rw [readied]
    change (reportAll _ _).dumpTree settings (parse _ _).statements = _ at hdumped
    rw [hdumped]
    rfl
  · exact absurd ((tooDeep_iff settings source hparse).mp hdeep) hroom

/-- A text with faults, or one that is not to be executed, is only scanned and parsed. -/
theorem run_unexecuted (hparse : session.has .noParse = false)
    (hroom : ¬session.TooDeepToDump settings source)
    (hstops : ((session.readied settings source).stops || session.has .noExecute) = true) :
    session.run settings steps source echo =
      (.ok (session.readied settings source).verdict, session.readied settings source) := by
  rw [run_parsed settings steps source echo hparse hroom, if_pos hstops]

/-- Otherwise a run comes to what the execution comes to. -/
theorem run_executed (h : session.Executes settings source) :
    session.run settings steps source echo =
      concluded (session.readied settings source).reporter
        (Eval.program (session.traced settings) steps echo (treesOf settings.levels source)
          (session.readied settings source).machine) := by
  rw [run_parsed settings steps source echo h.parses h.room, h.goes, if_neg Bool.false_ne_true]

end

/-- What holds after scanning, after parsing and after an execution holds after a run. -/
theorem run_elim {settings : Settings} {steps : Nat} {source : String} {echo : Bool}
    {session : Session} (holds : Except Escape Verdict × Session → Prop)
    (hunparsed : session.has .noParse = true →
      holds (.ok (session.scanned (Text.joinReturns source)).verdict,
        session.scanned (Text.joinReturns source)))
    (hundumped : session.TooDeepToDump settings source →
      holds (.error .exhausted, session.readied settings source))
    (hunexecuted : session.has .noParse = false →
      ((session.readied settings source).stops || session.has .noExecute) = true →
      holds (.ok (session.readied settings source).verdict, session.readied settings source))
    (hexecuted : session.Executes settings source →
      holds (concluded (session.readied settings source).reporter
        (Eval.program (session.traced settings) steps echo (treesOf settings.levels source)
          (session.readied settings source).machine))) :
    holds (session.run settings steps source echo) := by
  cases hparse : session.has .noParse with
  | true =>
    rw [run_unparsed settings steps source echo hparse]
    exact hunparsed hparse
  | false =>
    by_cases hdeep : session.TooDeepToDump settings source
    · rw [run_undumped settings steps source echo hdeep]
      exact hundumped hdeep
    · cases hgoes : (session.readied settings source).stops || session.has .noExecute with
      | true =>
        rw [run_unexecuted settings steps source echo hparse hdeep hgoes]
        exact hunexecuted hparse hgoes
      | false =>
        rw [run_executed settings steps source echo ⟨hparse, hdeep, hgoes⟩]
        exact hexecuted ⟨hparse, hdeep, hgoes⟩

/-! ## Limits -/

/-- Given enough steps, no room is left for nesting any deeper. -/
def MeetsLimit (after : (steps : Nat) → Session) : Prop :=
  ∃ steps, Diagnostic.overflow ∈ (after steps).reporter.errors.toList

theorem errors_concluded_exhausted (reporter : Reporter) (m : Machine) :
    Diagnostic.overflow ∈
      (concluded reporter (.error .exhausted m)).2.reporter.errors.toList := by
  change _ ∈ (reportAll _ [.overflow]).reporter.errors.toList
  rw [errors_reportAll]
  exact List.mem_append_right _ List.mem_cons_self

/-- Executions that end somewhere else do not meet the limit. -/
theorem not_meetsLimit_concluded {reporter : Reporter} (hstart : reporter.errors.toList = [])
    {settings : Settings} {steps : Nat} {echo : Bool} {statements : List Stmt} {m : Machine}
    (hends : (concluded reporter (Eval.program settings steps echo statements m)).1 ≠
      .error .unfinished)
    (hroom : Diagnostic.overflow ∉ (concluded reporter
      (Eval.program settings steps echo statements m)).2.reporter.errors.toList) :
    ¬MeetsLimit fun steps ↦
      (concluded reporter (Eval.program settings steps echo statements m)).2 := by
  rintro ⟨other, hother⟩
  dsimp only at hother
  rcases Nat.le_total steps other with hle | hle
  · rcases (Eval.program_continues hle echo statements).ends m with
      ⟨halt, after, heq, hgives, -⟩ | heq
    · cases halt with
      | unfinished =>
        rw [heq] at hends
        exact hends rfl
      | exhausted | returned | failed | faulted => exact hgives
    · rw [heq] at hother
      exact hroom hother
  · rcases (Eval.program_continues hle echo statements).ends m with
      ⟨halt, after, heq, hgives, -⟩ | heq
    · cases halt with
      | unfinished =>
        rw [heq] at hother
        change Diagnostic.overflow ∈ reporter.errors.toList at hother
        rw [hstart] at hother
        cases hother
      | exhausted | returned | failed | faulted => exact hgives
    · rw [← heq] at hother
      exact hroom hother

theorem not_meetsLimit_execute {session : Session} (hstart : session.reporter.errors.toList = [])
    {settings : Settings} {steps : Nat} {echo : Bool} {statements : List Stmt}
    (hends : (session.execute settings steps echo statements).1 ≠ some .unfinished)
    (hroom : Diagnostic.overflow ∉
      (session.execute settings steps echo statements).2.reporter.errors.toList) :
    ¬MeetsLimit fun steps ↦ (session.execute settings steps echo statements).2 := by
  simp only [execute_snd] at hroom ⊢
  refine not_meetsLimit_concluded hstart ?_ hroom
  rw [← execute_eq]
  rcases hresult : session.execute settings steps echo statements with ⟨_ | escape, after⟩
  · exact nofun
  · rw [hresult] at hends
    intro heq
    exact hends (congrArg some (Except.error.inj heq))

/-- Given enough steps, no room is left: for nesting any deeper, for writing a tree, or for reporting
a statement. -/
def RunsOut (run : (steps : Nat) → Except Escape Verdict × Session) : Prop :=
  (∃ steps, (run steps).1 = .error .exhausted) ∨ MeetsLimit (run · |>.2)

/-- A run whose execution exhausts its levels runs out of room. -/
theorem runsOut_of_concluded {run : (steps : Nat) → Except Escape Verdict × Session} {steps : Nat}
    {reporter : Reporter} {after : Machine}
    (h : run steps = concluded reporter (.error .exhausted after)) : RunsOut run := by
  refine .inr ⟨steps, ?_⟩
  dsimp only
  rw [h]
  exact errors_concluded_exhausted reporter after

/-- Runs that end somewhere else do not run out of room. -/
theorem not_runsOut {session : Session} {settings : Settings} {steps : Nat} {source : String}
    {echo : Bool} (hends : (session.run settings steps source echo).1 ≠ .error .unfinished)
    (hdumps : (session.run settings steps source echo).1 ≠ .error .exhausted)
    (hroom : Diagnostic.overflow ∉
      (session.run settings steps source echo).2.reporter.errors.toList) :
    ¬RunsOut fun steps ↦ session.run settings steps source echo := by
  by_cases hparse : session.has .noParse = true
  · simp only [run_unparsed settings _ source echo hparse] at hroom ⊢
    rintro (⟨_, hexhausted⟩ | ⟨_, hother⟩)
    · cases hexhausted
    · exact hroom hother
  rw [Bool.not_eq_true] at hparse
  have hdeep : ¬session.TooDeepToDump settings source := fun hdeep ↦
    hdumps (congrArg Prod.fst (run_undumped settings steps source echo hdeep))
  by_cases hgoes : ((session.readied settings source).stops || session.has .noExecute) = true
  · simp only [run_unexecuted settings _ source echo hparse hdeep hgoes] at hroom ⊢
    rintro (⟨_, hexhausted⟩ | ⟨_, hother⟩)
    · cases hexhausted
    · exact hroom hother
  · rw [Bool.not_eq_true] at hgoes
    have hexecutes : session.Executes settings source := ⟨hparse, hdeep, hgoes⟩
    simp only [run_executed settings _ source echo hexecutes] at hends hroom ⊢
    rintro (⟨_, hexhausted⟩ | hlimit)
    · exact fst_concluded_ne_exhausted _ _ hexhausted
    · exact not_meetsLimit_concluded hexecutes.errors_eq hends hroom hlimit

end Session

end Lox
