import Lox.Proofs.Machine.Wrapping
import Lox.Proofs.Session.Verdict

/-!
# A program and a block

On a new machine it makes no difference whether the statements of a program are executed one after
another or put in a block.
-/

namespace Lox

open Stateful

/-- Two executions are left in the same way.  A function that is returned may lie elsewhere. -/
def Escape.Alike : Escape → Escape → Prop
  | .returned v, .returned v' => v.Corresponds 0 (fun _ _ ↦ True) v'
  | escape, escape' => escape' = escape

namespace Session

/-- Two executions end in the same way: both succeed, both report the same single fault, or both are
left for the same reason.  The same has been written. -/
structure EndsAs (a b : Option Escape × Session) : Prop where
  escape : Option.Rel Escape.Alike a.1 b.1
  errors : b.2.reporter.errors = a.2.reporter.errors
  single : a.2.reporter.errors.size ≤ 1
  console : b.2.machine.console = a.2.machine.console

/-- What is reported depends on the reporter and the console. -/
theorem reportAll_endsAs {reporter : Reporter} (herrors : reporter.errors = #[]) {m m' : Machine}
    (hconsole : m'.console = m.console) (d : Diagnostic) :
    EndsAs (none, reportAll ⟨reporter, m.idle⟩ [d]) (none, reportAll ⟨reporter, m'.idle⟩ [d]) where
  escape := .none
  errors := by rw [reporter_reportAll, reporter_reportAll]
  single := by
    rw [reporter_reportAll]
    change (reporter.errors ++ #[d]).size ≤ 1
    rw [herrors]
    exact Nat.le_refl 1
  console := by
    change (reporter.reportAll [d] m'.console).2 = (reporter.reportAll [d] m.console).2
    rw [hconsole]

theorem execute_endsAs {session : Session} (herrors : session.reporter.errors = #[])
    {settings : Settings} {steps steps' : Nat} {statements statements' : List Stmt}
    (h : Eval.EndsAs
      (Eval.program (session.traced settings) steps false statements session.machine)
      (Eval.program (session.traced settings) steps' false statements' session.machine)) :
    EndsAs (session.execute settings steps false statements)
      (session.execute settings steps' false statements') := by
  obtain ⟨reporter, m⟩ := session
  change reporter.errors = #[] at herrors
  have hnone : reporter.errors.size ≤ 1 := by
    rw [herrors]
    exact Nat.zero_le 1
  unfold traced has flags at h
  unfold execute
  dsimp only at h ⊢
  generalize Eval.program _ steps false statements m = result at h ⊢
  generalize Eval.program _ steps' false statements' m = result' at h ⊢
  cases result with
  | ok _ after =>
    cases result' with
    | ok _ after' => exact ⟨.none, rfl, hnone, h⟩
    | error halt' after' => cases h
  | error halt after =>
    cases result' with
    | ok _ after' => cases h
    | error halt' after' =>
      obtain ⟨hconsole, hhalts⟩ := h
      cases halt with
      | returned v =>
        cases halt' with
        | returned v' => exact ⟨.some hhalts, rfl, hnone, hconsole⟩
        | failed | faulted | exhausted | unfinished => cases hhalts
      | failed d =>
        obtain rfl := hhalts
        exact reportAll_endsAs herrors hconsole d
      | exhausted =>
        obtain rfl := hhalts
        exact reportAll_endsAs herrors hconsole .overflow
      | faulted fault =>
        obtain rfl := hhalts
        exact ⟨.some rfl, rfl, hnone, hconsole⟩
      | unfinished =>
        obtain rfl := hhalts
        exact ⟨.some rfl, rfl, hnone, hconsole⟩

/-- What an execution has printed is what the program has. -/
theorem out_execute (session : Session) (settings : Settings) (steps : Nat)
    (statements : List Stmt) :
    (session.execute settings steps false statements).2.machine.console.out =
      (final (Eval.program (session.traced settings) steps false statements
        session.machine)).console.out := by
  rw [execute_snd, out_concluded]

theorem meetsLimit_execute {session : Session} {settings : Settings} {steps : Nat}
    {statements : List Stmt} {after : Machine}
    (h : Eval.program (session.traced settings) steps false statements session.machine =
      .error .exhausted after) :
    MeetsLimit fun steps ↦ (session.execute settings steps false statements).2 := by
  refine ⟨steps, ?_⟩
  dsimp only
  rw [execute_snd, h]
  exact errors_concluded_exhausted session.reporter after

theorem execute_unfinished {session : Session} {settings : Settings} {steps : Nat}
    {statements : List Stmt} {after : Machine}
    (h : Eval.program (session.traced settings) steps false statements session.machine =
      .error .unfinished after) :
    (session.execute settings steps false statements).1 = some .unfinished := by
  obtain ⟨reporter, m⟩ := session
  unfold traced has flags at h
  unfold execute
  dsimp only at h ⊢
  rw [h]

/-- A block around a program changes nothing.  On a new machine and without trace, with the same
readings of the clock and as long as room is left for nesting in the block, the statements one after
another and the block that holds them have the same course: what has been printed after some steps
of the one is what the other prints first, and if the one ends, so does the other, in the same way
and with the same on the console.  So if one of them does not end, neither does the other. -/
theorem block_executed_as_program (settings : Settings) {flags : Flags} (htrace : .trace ∉ flags)
    (echoErrors coloured : Bool) (statements : List Stmt) :
    let session := Session.new flags echoErrors coloured
    let plain steps := session.execute settings steps false statements
    let wrapped steps := session.execute settings steps false [.block statements]
    ¬MeetsLimit (wrapped · |>.2) →
    (∀ steps, ∃ steps', (plain steps).2.machine.Printed (wrapped steps').2.machine ∧
      ((plain steps).1 = some .unfinished ∨ EndsAs (plain steps) (wrapped steps'))) ∧
    ∀ steps, ∃ steps', (wrapped steps).2.machine.Printed (plain steps').2.machine ∧
      ((wrapped steps).1 = some .unfinished ∨ EndsAs (plain steps') (wrapped steps)) := by
  intro session plain wrapped hlimit
  have htraced : (session.traced settings).traced = false := by
    change flags.contains .trace = false
    simpa using htrace
  have hlayered : Coupling.layered.Coupled session.machine session.machine.entered :=
    Machine.fresh_layered _ 0
  have hout (steps : Nat) : (plain steps).2.machine.console.out =
      (final (Eval.program (session.traced settings) steps false statements
        session.machine)).console.out := out_execute session settings steps statements
  have hout' (steps : Nat) : (wrapped steps).2.machine.console.out =
      (final (Eval.program (session.traced settings) steps false [.block statements]
        session.machine)).console.out := out_execute session settings steps [.block statements]
  constructor
  · intro steps
    obtain ⟨steps', ⟨after, hexhausted⟩ | ⟨after, hunfinished, text, htext⟩ | hends⟩ :=
      Eval.program_endsAs_block htraced hlayered steps statements
    · exact absurd (meetsLimit_execute hexhausted) hlimit
    · refine ⟨steps', ⟨text, ?_⟩, .inl (execute_unfinished hunfinished)⟩
      rw [hout, hout', hunfinished]
      exact htext
    · have hsame : EndsAs (plain steps) (wrapped steps') := execute_endsAs rfl hends
      exact ⟨steps', Machine.printed_of_out_eq (congrArg Console.out hsame.console), .inr hsame⟩
  · intro steps
    obtain ⟨steps', ⟨halt, after, hhalt, hgives, text, htext⟩ | hends⟩ :=
      Eval.block_endsAs_program htraced hlayered steps statements
    · cases halt with
      | exhausted => exact absurd (meetsLimit_execute hhalt) hlimit
      | unfinished =>
        refine ⟨steps', ⟨text, ?_⟩, .inl (execute_unfinished hhalt)⟩
        rw [hout, hout', hhalt]
        exact htext
      | returned | failed | faulted => exact absurd hgives id
    · have hsame : EndsAs (plain steps') (wrapped steps) := execute_endsAs rfl hends
      exact ⟨steps', Machine.printed_of_out_eq (congrArg Console.out hsame.console.symm),
        .inr hsame⟩

/-- A function of the machine gets another value, its name is declared anew, and a function that
uses the name fails in a call. -/
theorem redeclaring_program_in_block :
    let name (lexeme : String) : Token := ⟨.identifier, lexeme, .nil, 1, 0⟩
    let call (value : Atom) : Stmt :=
      .expression (.call (.var (name "f")) ⟨.rightParen, ")", .nil, 1, 0⟩ [.literal value])
    let statements : List Stmt :=
      [.function (name "f") [name "n"] [.expression (.assign (name "clock") (.var (name "n"))),
          .print (.var (name "clock")),
          .branch (.var (name "n")) (call .nil) (some (.expression (.var (name "c"))))],
        .expression (.assign (name "clock") (.literal .nil)),
        .declare (name "clock") (some (.var (name "f"))), .print (.var (name "clock")),
        call (.bool true)]
    let session := Session.new [] true false
    let plain steps := session.execute {} steps false statements
    let wrapped steps := session.execute {} steps false [.block statements]
    (plain 30).2.machine.console.out = "<fn f>\ntrue\nnil\n" ∧
      (plain 30).2.reporter.errors.map Diagnostic.message = #["Undefined variable 'c'."] ∧
      ¬MeetsLimit (wrapped · |>.2) ∧ (∃ steps, EndsAs (plain 30) (wrapped steps)) ∧
      ∃ steps, EndsAs (plain steps) (wrapped 30) := by
  intro name call statements session plain wrapped
  have hout : (plain 30).2.machine.console.out = "<fn f>\ntrue\nnil\n" := by decide +kernel
  have herrors : (plain 30).2.reporter.errors.map Diagnostic.message =
      #["Undefined variable 'c'."] := by decide +kernel
  have hplain : (plain 30).1.isNone = true := by decide +kernel
  have hwrapped : (wrapped 30).1.isNone = true := by decide +kernel
  have hroom : Diagnostic.overflow ∉ (wrapped 30).2.reporter.errors.toList := by decide +kernel
  have hends : (plain 30).1 ≠ some .unfinished := by
    rw [Option.isNone_iff_eq_none.mp hplain]
    exact nofun
  have hends' : (wrapped 30).1 ≠ some .unfinished := by
    rw [Option.isNone_iff_eq_none.mp hwrapped]
    exact nofun
  have hlimit : ¬MeetsLimit (wrapped · |>.2) := not_meetsLimit_execute rfl hends' hroom
  obtain ⟨hforth, hback⟩ :=
    block_executed_as_program {} List.not_mem_nil true false statements hlimit
  obtain ⟨steps, -, hunfinished | hsame⟩ := hforth 30
  · exact absurd hunfinished hends
  obtain ⟨steps', -, hunfinished | hsame'⟩ := hback 30
  · exact absurd hunfinished hends'
  · exact ⟨hout, herrors, hlimit, ⟨steps, hsame⟩, steps', hsame'⟩

end Session

end Lox
