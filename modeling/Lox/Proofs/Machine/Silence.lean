import Lox.Proofs.Machine.Coupling
import Lox.Proofs.Machine.Sequence

/-!
# Executions apart from what they write

What is written to the console is never read.  An execution that reports its steps, or shows the
values of expressions, therefore comes to the same as one that does not, as long as there is room
for nesting: a statement that is reported needs room for its text, and an expression whose value is
shown is not executed as a statement.
-/

namespace Lox

open Stateful

def Machine.hushed (m : Machine) : Machine :=
  { m with console := {} }

namespace Coupling

/-- Machines that are the same but for their consoles. -/
abbrev mute : Coupling :=
  alongside ⟨fun _ _ ↦ True, fun _ _ ↦ trivial⟩

/-- Machines that are the same, and on which the same has been printed. -/
abbrev heard : Coupling :=
  alongside ⟨fun a a' ↦ a'.out = a.out, fun line h ↦ congrArg (· ++ line ++ "\n") h⟩

theorem mute_fits (settings : Settings) : mute.Fits settings settings.untraced where
  levels := rfl
  calls := rfl
  clock _ := rfl
  traced := .inr rfl
  trace _ _ := trivial

theorem heard_fits (settings : Settings) : heard.Fits settings settings.untraced where
  levels := rfl
  calls := rfl
  clock _ := rfl
  traced := .inr rfl
  trace {a a'} step h := by
    have htrace : (if settings.traced then a.trace step else a).out = a.out := by
      cases settings.traced <;> rfl
    change a'.out = (if settings.traced then a.trace step else a).out
    rw [htrace]
    exact h

/-- Executions that end alike end in the same way, but for the console. -/
theorem Done.hushed_eq {likeness : Likeness} {before : Machine}
    {result result' : EStateM.Result Halt Machine Unit}
    (h : (alongside likeness).Done (fun _ _ _ ↦ True) before result result') :
    image Machine.hushed id id result' = image Machine.hushed id id result := by
  cases result with
  | ok _ m =>
    cases result' with
    | ok _ m' =>
      rw [h.1.eq_withConsole]
      rfl
    | error halt' m' => cases h
  | error halt m =>
    cases result' with
    | ok _ m' => cases h
    | error halt' m' =>
      rw [h.1.eq_withConsole, halts_eq h.2.2]
      rfl

end Coupling

/-! ## Without showing values -/

namespace Eval

/-- What a program does apart from showing the values of expressions. -/
def silent (settings : Settings) (steps : Nat) (echo : Bool) (statements : List Stmt) : Eval Unit :=
  if echo then unshown settings steps settings.levels settings.levels statements
  else inTurn settings steps settings.levels statements

/-- Whether values are shown makes no difference, unless a limit is met. -/
theorem silent_ends {settings : Settings} (h : settings.traced = false) (steps : Nat)
    (echo echo' : Bool) (statements : List Stmt) (m : Machine) :
    ∃ steps', (∃ after, silent settings steps echo statements m = .error .unfinished after) ∨
      (∃ after, silent settings steps echo statements m = .error .exhausted after) ∨
      (∃ after, silent settings steps' echo' statements m = .error .exhausted after) ∨
      silent settings steps' echo' statements m = silent settings steps echo statements m := by
  cases echo with
  | false =>
    cases echo' with
    | false => exact ⟨steps, .inr (.inr (.inr rfl))⟩
    | true =>
      refine ⟨steps, ?_⟩
      have hcontinues := inTurn_continues_unshown h steps settings.levels statements
      rcases hcontinues.ends m with ⟨halt, after, hends, hgives, -⟩ | heq
      · cases halt with
        | unfinished => exact .inl ⟨after, hends⟩
        | exhausted => exact .inr (.inl ⟨after, hends⟩)
        | returned | failed | faulted => exact absurd hgives id
      · exact .inr (.inr (.inr heq))
  | true =>
    cases echo' with
    | true => exact ⟨steps, .inr (.inr (.inr rfl))⟩
    | false =>
      refine ⟨steps + 1, ?_⟩
      have hwider : Continues False True
          (unshown settings steps settings.levels (settings.levels - 3) statements)
          (unshown settings steps settings.levels settings.levels statements) :=
        unshown_continues settings.levels (Nat.sub_le settings.levels 3) steps statements
      have hlonger := unshown_continues_inTurn h steps settings.levels statements
      rcases hwider.fork hlonger m with hexhausted | ⟨after, hunfinished, -⟩ | heq
      · exact .inr (.inr (.inl hexhausted))
      · exact .inl ⟨after, hunfinished⟩
      · exact .inr (.inr (.inr heq))

end Eval

/-! ## Programs -/

namespace Coupling

variable {settings settings' : Settings}

/-- Showing a value is to write it to the console. -/
theorem unshown_at (hfits : mute.Fits settings settings') (steps : Nat) (statements : List Stmt)
    {record : Record} {m' : Machine} (h : mute.Joins record m') :
    (mute.correspondence settings settings').At () record m' Correspondence.done
      (Course.program settings steps true statements)
      (Eval.unshown settings' steps settings'.levels settings'.levels statements) := by
  have hcongruence := congruence hfits
  have hrelates := hcongruence.relatesFor steps
  have hprint {record : Record} {m' : Machine} (h : mute.Joins record m') (line : String) :
      (mute.correspondence settings settings').At () record m' Correspondence.done
        (Host.perform (Eval.print line)) (pure ()) := by
    have hdone : mute.Done (fun _ _ _ ↦ True) record.machine
        (Eval.print line record.machine) ((pure () : Eval Unit) m') :=
      ⟨h.coupled.withConsole trivial, ⟨.refl _, rfl⟩, trivial⟩
    exact h.once_at hdone
  induction statements generalizing record m' with
  | nil => exact hcongruence.pure h trivial
  | cons s rest ih =>
    have hstmt : (mute.correspondence settings settings').At () record m' Correspondence.done
        (Eval.stmt settings steps settings.levels s >>= fun _ ↦
          Course.program settings steps true rest)
        (Eval.stmt settings' steps settings.levels s >>= fun _ ↦
          Eval.unshown settings' steps settings'.levels settings'.levels rest) :=
      hcongruence.bind (hrelates.stmt settings.levels () s s rfl record m' h)
        fun _ _ _ _ h' _ _ ↦ ih h'
    unfold Course.program Eval.program Eval.unshown
    rw [hfits.levels] at *
    cases s with
    | expression value =>
      refine hcongruence.bind (hrelates.expr settings.levels value value rfl record m' h)
        fun _ _ v _ h' _ _ ↦ ?_
      exact hcongruence.bind (hprint h' v.source) fun _ _ _ _ h'' _ _ ↦ ih h''
    | block | empty | function | branch | print | ret | declare | loop | void => exact hstmt

/-- A program comes to the same with and without all that it writes, unless there are not levels
enough for a report. -/
theorem program_silent (hfits : mute.Fits settings settings') (steps : Nat) (echo : Bool)
    (statements : List Stmt) {m m' : Machine} (h : mute.Coupled m m') :
    (∃ after, Eval.program settings steps echo statements m = .error .exhausted after) ∨
      mute.Done (fun _ _ _ ↦ True) m (Eval.program settings steps echo statements m)
        (Eval.silent settings' steps echo statements m') := by
  cases echo with
  | false =>
    rw [Eval.silent, if_neg Bool.false_ne_true, ← Eval.program_eq_inTurn]
    exact program_exhausted_or_done hfits steps false statements h
  | true =>
    rw [Eval.silent, if_pos rfl, ← program_ended]
    exact exhausted_or_done (fun _ _ _ ↦ True) (unshown_at hfits steps statements h.start)

end Coupling

end Lox
