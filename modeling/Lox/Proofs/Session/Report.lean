import Lox.Session
import Mathlib.Data.List.TakeWhile

/-!
# What is written during a run

Reporting faults and listing tokens or trees changes what has been written on the console and which
faults have been collected.  Nothing else in a session changes, and what is said about a program is
not printed by it.
-/

namespace Lox

namespace Console

/-- At most, more has been said about the program. -/
def Commented (before after : Console) : Prop :=
  after = { before with err := after.err }

theorem Commented.refl (console : Console) : console.Commented console :=
  rfl

theorem Commented.trans {a b c : Console} (h : a.Commented b) (h' : b.Commented c) :
    a.Commented c := by
  rw [Commented] at h h' ⊢
  rw [h', h]

theorem Commented.out {a b : Console} (h : a.Commented b) : b.out = a.out := by
  rw [h]

theorem Commented.coloured {a b : Console} (h : a.Commented b) : b.coloured = a.coloured := by
  rw [h]

theorem coloured_foldl_print (lines : List String) (console : Console) :
    (lines.foldl print console).coloured = console.coloured := by
  induction lines generalizing console with
  | nil => rfl
  | cons line lines ih => exact ih (console.print line)

theorem commented_report (console : Console) (line : String) :
    console.Commented (console.report line) :=
  rfl

end Console

namespace Reporter

/-- Faults are written to the stream for what is said about the program. -/
theorem write_commented (reporter : Reporter) (d : Diagnostic) (console : Console) :
    console.Commented (reporter.write d console) := by
  have hfold (frames : List Frame) (line : Frame → String) (console : Console) :
      console.Commented
        (frames.foldl (fun console frame ↦ console.report (line frame)) console) := by
    induction frames generalizing console with
    | nil => exact .refl console
    | cons frame frames ih => exact (console.commented_report _).trans (ih _)
  have hcalls {shown : Bool} {text : Console} (h : console.Commented text) (frames : List Frame)
      (line : Frame → String) : console.Commented (if shown then
        frames.foldl (fun console frame ↦ console.report (line frame)) text else text) := by
    split
    · exact h.trans (hfold frames line text)
    · exact h
  unfold write
  apply hcalls
  split
  · exact console.commented_report _
  · split
    · exact (console.commented_report _).trans (Console.commented_report _ _)
    · exact console.commented_report _

/-- Faults are collected in order. -/
theorem reportAll_fst (reporter : Reporter) (ds : List Diagnostic) (console : Console) :
    (reporter.reportAll ds console).1 =
      { reporter with errors := reporter.errors ++ ds.toArray } := by
  induction ds generalizing reporter console with
  | nil => simp [reportAll]
  | cons d ds ih =>
    change (({ reporter with errors := reporter.errors.push d } : Reporter).reportAll ds _).1 = _
    rw [ih]
    simp

theorem reportAll_commented (reporter : Reporter) (ds : List Diagnostic) (console : Console) :
    console.Commented (reporter.reportAll ds console).2 := by
  induction ds generalizing reporter console with
  | nil => exact .refl console
  | cons d ds ih =>
    have hreport : console.Commented (reporter.report d console).2 := by
      unfold report
      dsimp only
      split
      · exact reporter.write_commented d console
      · exact .refl console
    exact hreport.trans (ih _ _)

end Reporter

namespace Session

/-- What has been written and collected may differ, and nothing else. -/
structure Watched (before after : Session) : Prop where
  machine : after.machine = { before.machine with console := after.machine.console }
  coloured : after.machine.console.coloured = before.machine.console.coloured
  flags : after.flags = before.flags
  echo : after.reporter.echo = before.reporter.echo

theorem Watched.trans {a b c : Session} (h : a.Watched b) (h' : b.Watched c) : a.Watched c where
  machine := by rw [h'.machine, h.machine]
  coloured := h'.coloured.trans h.coloured
  flags := h'.flags.trans h.flags
  echo := h'.echo.trans h.echo

theorem Watched.has {before after : Session} (h : before.Watched after) (flag : Flag) :
    after.has flag = before.has flag := by
  rw [Session.has, Session.has, h.flags]

theorem reporter_reportAll (session : Session) (ds : List Diagnostic) :
    (session.reportAll ds).reporter =
      { session.reporter with errors := session.reporter.errors ++ ds.toArray } :=
  session.reporter.reportAll_fst ds session.machine.console

theorem errors_reportAll (session : Session) (ds : List Diagnostic) :
    (session.reportAll ds).reporter.errors.toList = session.reporter.errors.toList ++ ds := by
  rw [reporter_reportAll]
  simp

/-- Reports are not printed by the program. -/
theorem out_reportAll (session : Session) (ds : List Diagnostic) :
    (session.reportAll ds).machine.console.out = session.machine.console.out :=
  (session.reporter.reportAll_commented ds session.machine.console).out

theorem reportAll_watched (session : Session) (ds : List Diagnostic) :
    session.Watched (session.reportAll ds) where
  machine := rfl
  coloured := (session.reporter.reportAll_commented ds session.machine.console).coloured
  flags := by rw [flags, reporter_reportAll, flags]
  echo := by rw [reporter_reportAll]

theorem dumpTokens_watched (session : Session) (tokens : List Token) :
    session.Watched (session.dumpTokens tokens) := by
  unfold dumpTokens
  split
  · split
    · exact ⟨rfl, rfl, rfl, rfl⟩
    · exact ⟨rfl, rfl, rfl, rfl⟩
  · exact ⟨rfl, rfl, rfl, rfl⟩

theorem reporter_dumpTokens (session : Session) (tokens : List Token) :
    (session.dumpTokens tokens).reporter = session.reporter := by
  unfold dumpTokens
  split
  · split
    · rfl
    · rfl
  · rfl

/-- What is printed for tokens depends on the flags only. -/
theorem out_dumpTokens {a b : Session} (hflags : a.flags = b.flags)
    (hout : a.machine.console.out = b.machine.console.out) (tokens : List Token) :
    (a.dumpTokens tokens).machine.console.out = (b.dumpTokens tokens).machine.console.out := by
  unfold dumpTokens has
  rw [hflags]
  split
  · split
    · simp [onConsole, Console.print, hout]
    · simp [onConsole, Console.dump, Console.openDump, Console.print, hout]
  · exact hout

/-- Trees are to be written, and for one of them there are not levels enough. -/
def TooDeep (settings : Settings) (statements : List Stmt) (session : Session) : Prop :=
  session.has .dumpTree = true ∧ session.reporter.faulty = false ∧
    ∃ s ∈ statements, settings.levels < s.textLevels

/-- Writing trees changes nothing but the console, and ends the run only if they are too deep. -/
theorem dumpTree_cases (settings : Settings) (statements : List Stmt) (session : Session) :
    ∃ write : Console → Console, (∀ console, (write console).coloured = console.coloured) ∧
      (session.dumpTree settings statements = (none, session.onConsole write) ∧
        ¬ session.TooDeep settings statements ∨
      session.dumpTree settings statements = (some .exhausted, session.onConsole write) ∧
        session.TooDeep settings statements) := by
  unfold dumpTree
  split
  · rename_i hasked
    obtain ⟨hflag, hfaulty⟩ := Bool.and_eq_true_iff.mp hasked
    have hfits : (statements.takeWhile (·.textLevels ≤ settings.levels)).length =
        statements.length ↔ ∀ s ∈ statements, s.textLevels ≤ settings.levels := by
      rw [(List.takeWhile_sublist _).length_eq, List.takeWhile_eq_self_iff]
      simp
    dsimp only
    split
    · rename_i hlength
      refine ⟨(·.dump "AST" (statements.map Stmt.text)), fun _ ↦ rfl, .inl ⟨rfl, ?_⟩⟩
      rintro ⟨_, _, s, hs, hdeep⟩
      exact absurd (hfits.mp hlength s hs) (Nat.not_le_of_lt hdeep)
    · rename_i hlength
      refine ⟨_, fun console ↦ ?_, .inr ⟨rfl, hflag, by simpa using hfaulty, ?_⟩⟩
      · exact Console.coloured_foldl_print _ _
      · by_contra hnone
        exact hlength (hfits.mpr fun s hs ↦ Nat.le_of_not_lt fun hdeep ↦ hnone ⟨s, hs, hdeep⟩)
  · rename_i hasked
    refine ⟨id, fun _ ↦ rfl, .inl ⟨rfl, fun ⟨hflag, hfaulty, _⟩ ↦ hasked ?_⟩⟩
    rw [hflag, hfaulty]
    rfl

theorem reporter_dumpTree (settings : Settings) (statements : List Stmt) (session : Session) :
    (session.dumpTree settings statements).2.reporter = session.reporter := by
  obtain ⟨write, -, ⟨h, -⟩ | ⟨h, -⟩⟩ := dumpTree_cases settings statements session <;> rw [h] <;> rfl

/-- Trees are written, and nothing else is changed. -/
theorem dumpTree_watched (settings : Settings) (statements : List Stmt) (session : Session) :
    session.Watched (session.dumpTree settings statements).2 := by
  obtain ⟨write, hcoloured, ⟨h, -⟩ | ⟨h, -⟩⟩ := dumpTree_cases settings statements session
  all_goals
    rw [h]
    exact ⟨rfl, hcoloured _, rfl, rfl⟩

/-- No trees are written unless that is asked for. -/
theorem dumpTree_of_unwanted {session : Session} (h : session.has .dumpTree = false)
    (settings : Settings) (statements : List Stmt) :
    session.dumpTree settings statements = (none, session) := by
  rw [dumpTree, h]
  rfl

/-- No trees are written once faults have been found. -/
theorem dumpTree_of_faults {session : Session} (h : session.reporter.errors.toList ≠ [])
    (settings : Settings) (statements : List Stmt) :
    session.dumpTree settings statements = (none, session) := by
  have hfaulty : session.reporter.faulty = true := by
    simpa [Reporter.faulty] using h
  rw [dumpTree, hfaulty]
  simp

/-- A run stops as soon as faults have been found. -/
theorem stops_iff (session : Session) :
    session.stops = true ↔ session.reporter.errors.toList ≠ [] := by
  unfold stops stopCode?
  cases session.reporter.errors.toList with
  | nil => simp
  | cons d ds =>
    simp only [List.isEmpty_cons, Bool.false_eq_true, if_false]
    split
    · simp
    · simp

/-- A run that goes on has found no faults so far. -/
theorem errors_of_goes {session : Session} {unwanted : Bool}
    (h : (session.stops || unwanted) = false) : session.reporter.errors.toList = [] := by
  by_contra hne
  rw [(stops_iff session).mpr hne] at h
  cases h

end Session

end Lox
