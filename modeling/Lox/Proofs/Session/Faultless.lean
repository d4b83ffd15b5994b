import Lox.Proofs.Parse.Exactness
import Lox.Proofs.Relocation.Machine
import Lox.Proofs.Scan.Tiling
import Lox.Proofs.Session.Safety

/-!
# Running a text without faults of form

A text that can be scanned and parsed without faults is a program that the grammar derives, and
without flags to run it is to execute this program and no more.  The machine is at rest between two
runs, whatever the texts were.
-/

namespace Lox

open Stateful Lox.Parser Grammar

theorem endsOnce_scan (source : String) : EndsOnce (scan source).tokens := by
  refine ⟨_, _, scan_tokens source, rfl, ?_⟩
  intro token htoken
  exact kind_ne_eof htoken

namespace Faultless

variable {levels : Nat} {source : String}

theorem errors_eq (h : Faultless levels source) :
    (parse levels (scan (Text.joinReturns source)).tokens).errors = [] := by
  have hparsed := h.parsed
  unfold Parsed.diagnostics at hparsed
  exact List.map_eq_nil_iff.mp (List.append_eq_nil_iff.mp hparsed).1

theorem stopped_eq (h : Faultless levels source) :
    (parse levels (scan (Text.joinReturns source)).tokens).stopped = none := by
  have hparsed := h.parsed
  unfold Parsed.diagnostics at hparsed
  have hreason := (List.append_eq_nil_iff.mp hparsed).2
  cases hstopped : (parse levels (scan (Text.joinReturns source)).tokens).stopped with
  | none => rfl
  | some reason =>
    obtain ⟨cause, rest⟩ := reason
    obtain ⟨rfl, hend⟩ := (parse_safe (hasEnd_scan _) levels).2 cause rest hstopped
    rw [hstopped] at hreason
    cases rest with
    | nil => exact absurd hend not_hasEnd_nil
    | cons token rest => cases hreason

/-- The grammar derives the trees of the text. -/
theorem program (h : Faultless levels source) :
    Program (scan (Text.joinReturns source)).tokens (treesOf levels source) :=
  program_of_parse (endsOnce_scan _) h.stopped_eq h.errors_eq

end Faultless

/-! ## Machines at rest -/

namespace Session

theorem concluded_atRest (reporter : Reporter) (result : EStateM.Result Halt Machine Unit) :
    (concluded reporter result).2.machine.AtRest := by
  rw [(concluded_watched reporter result).machine]
  exact Machine.idle_atRest _

theorem execute_atRest (settings : Settings) (steps : Nat) (echo : Bool) (statements : List Stmt)
    (session : Session) : (session.execute settings steps echo statements).2.machine.AtRest := by
  rw [execute_snd]
  exact concluded_atRest _ _

/-- No run leaves calls in progress or another scope current. -/
theorem run_atRest (settings : Settings) (steps : Nat) (source : String) (echo : Bool)
    {session : Session} (h : session.machine.AtRest) :
    (session.run settings steps source echo).2.machine.AtRest := by
  have hconsole (m : Machine) (console : Console) (hm : m.AtRest) : { m with console }.AtRest := hm
  have hreadied := (session.readied_watched settings source).keeps hconsole h
  apply run_elim fun result ↦ result.2.machine.AtRest
  · exact fun _ ↦ (session.scanned_watched _).keeps hconsole h
  · exact fun _ ↦ hreadied
  · exact fun _ _ ↦ hreadied
  · exact fun _ ↦ concluded_atRest _ _

/-- Between two runs the machine is at rest. -/
theorem takeAll_atRest (settings : Settings) {session : Session} (h : session.machine.AtRest)
    (history : List Step) : (session.takeAll settings history).machine.AtRest := by
  induction history generalizing session with
  | nil => exact h
  | cons step history ih =>
    apply ih
    cases step with
    | run steps source echo => exact run_atRest settings steps source echo h
    | setFlags flags => exact h
    | restart => exact ⟨rfl, rfl⟩

/-! ## Runs without faults of form -/

def started (session : Session) (source : String) : Reporter :=
  { session.reporter.reset with source := .ofString (Text.joinReturns source) }

theorem has_eq_false {session : Session} (h : session.flags = []) (flag : Flag) :
    session.has flag = false := by
  rw [has, h]
  rfl

/-- Without flags, a text whose form has no faults is just executed. -/
theorem run_of_faultless {session : Session} (hflags : session.flags = []) {settings : Settings}
    {source : String} (h : Faultless settings.levels source) (steps : Nat) :
    session.run settings steps source false =
      concluded (session.started source)
        (Eval.program settings.untraced steps false (treesOf settings.levels source)
          session.machine) := by
  have hstarted : flags ⟨session.started source, session.machine⟩ = [] := hflags
  have hscanned : session.scanned (Text.joinReturns source) =
      ⟨session.started source, session.machine⟩ := by
    rw [scanned, h.scanned]
    change dumpTokens ⟨session.started source, session.machine⟩ _ = _
    rw [dumpTokens, has_eq_false hstarted]
    rfl
  have hreadied : session.readied settings source = ⟨session.started source, session.machine⟩ := by
    rw [readied, hscanned, h.parsed]
    exact congrArg Prod.snd (dumpTree_of_unwanted (has_eq_false hstarted .dumpTree) settings _)
  have hroom : ¬session.TooDeepToDump settings source := by
    intro hdeep
    have hdumps := hdeep.dumps
    rw [has_eq_false hflags] at hdumps
    cases hdumps
  have hgoes : ((session.readied settings source).stops || session.has .noExecute) = false := by
    rw [hreadied, has_eq_false hflags]
    rfl
  have htraced : session.traced settings = settings.untraced := by
    rw [traced, has_eq_false hflags]
    rfl
  rw [run_executed settings steps source false ⟨has_eq_false hflags .noParse, hroom, hgoes⟩,
    hreadied, htraced]

end Session

end Lox
