import Lox.Proofs.Machine.Steps

/-!
# Statements in turn

The statements of a program are all executed with the same limits.  Those of a block are executed
with fewer and fewer steps, and those that show the values of expressions have a little more room
for nesting.  None of this makes a difference to a program that stays within the limits.
-/

namespace Lox.Eval

open Stateful

variable {α : Type} {settings : Settings}

/-- If one execution can be continued in two ways, by more levels or by more steps, the two end in
the same way unless the first lacks steps or the second lacks levels. -/
theorem Continues.fork {p x y : Eval α} (hx : Continues False True p x)
    (hy : Continues True False p y) (m : Machine) :
    (∃ after, y m = .error .exhausted after) ∨
      (∃ after, x m = .error .unfinished after ∧ after.Printed (final (y m))) ∨ y m = x m := by
  rcases hx.ends m with ⟨halt, after, hp, hgives, -⟩ | hxp
  · cases halt with
    | exhausted =>
      -- More steps do not help either.
      rcases hy.ends m with ⟨halt', _, hp', hgives', -⟩ | hyp
      · rw [hp] at hp'
        cases hp'
        exact absurd hgives' id
      · exact .inl ⟨after, hyp.trans hp⟩
    | unfinished | returned | failed | faulted => exact absurd hgives id
  · rcases hy.ends m with ⟨halt, after, hp, hgives, hproceeds⟩ | hyp
    · cases halt with
      | unfinished => exact .inr (.inl ⟨after, hxp.trans hp, hproceeds.printed⟩)
      | exhausted | returned | failed | faulted => exact absurd hgives id
    · exact .inr (.inr (hyp.trans hxp.symm))

/-! ## Equal limits -/

/-- Executes statements in order, each with the same limits. -/
def inTurn (settings : Settings) (steps levels : Nat) : List Stmt → Eval Unit
  | [] => pure ()
  | s :: rest => do
    stmt settings steps levels s
    inTurn settings steps levels rest

/-- A program that shows nothing executes its statements in turn. -/
theorem program_eq_inTurn (settings : Settings) (steps : Nat) (statements : List Stmt) :
    program settings steps false statements =
      inTurn settings steps settings.levels statements := by
  induction statements with
  | nil => rfl
  | cons s rest ih =>
    unfold program inTurn
    rw [ih]

/-- With more room, statements in turn go on where they would have given up. -/
theorem inTurn_continues {room wider : Nat} (h : room ≤ wider) (count : Nat)
    (body : List Stmt) :
    Continues False True (inTurn settings count room body) (inTurn settings count wider body) := by
  have hlevels : ContinuesFor False True settings count count := continuesFor (.refl _ _)
  induction body with
  | nil => exact .pure ()
  | cons s rest ih => exact .bind (hlevels.stmt room wider s (.inr ⟨h, trivial⟩)) fun _ ↦ ih

/-! ## Fewer and fewer steps -/

/-- With enough steps for all statements, each has as many as it needs. -/
theorem inTurn_continues_stmts (room : Nat) {count more : Nat} {body : List Stmt}
    (h : count + body.length < more) :
    Continues True False (inTurn settings count room body) (stmts settings more room body) := by
  induction body generalizing more with
  | nil =>
    obtain ⟨more, rfl⟩ : ∃ fewer, more = fewer + 1 := ⟨more - 1, by omega⟩
    rw [stmts]
    exact .pure ()
  | cons s rest ih =>
    rw [List.length_cons] at h
    obtain ⟨more, rfl⟩ : ∃ fewer, more = fewer + 1 := ⟨more - 1, by omega⟩
    have hsteps : ContinuesFor True False settings count more :=
      continuesFor (.inr ⟨by omega, trivial⟩)
    rw [stmts]
    exact .bind (hsteps.stmt room room s (.refl _ _)) fun _ ↦ ih (by omega)

/-- Statements that share their room and their steps do no more than statements in turn. -/
theorem stmts_continues_inTurn {count more room wider : Nat} (hcount : count ≤ more)
    (hroom : room ≤ wider) (body : List Stmt) :
    Continues True True (stmts settings count room body) (inTurn settings more wider body) := by
  have hsame : Continues False True (inTurn settings more wider body)
      (inTurn settings more wider body) := inTurn_continues (Nat.le_refl wider) more body
  induction body generalizing count with
  | nil =>
    cases count with
    | zero =>
      rw [stmts]
      exact .of_givesUp trivial hsame.prints
    | succ count =>
      rw [stmts]
      exact .pure ()
  | cons s rest ih =>
    cases count with
    | zero =>
      rw [stmts]
      exact .of_givesUp trivial hsame.prints
    | succ count =>
      have hfewer : count ≤ more := Nat.le_of_succ_le hcount
      have hsteps : ContinuesFor True True settings count more :=
        continuesFor (.inr ⟨hfewer, trivial⟩)
      rw [stmts]
      exact .bind (hsteps.stmt room wider s (.inr ⟨hroom, trivial⟩)) fun _ ↦
        ih hfewer (inTurn_continues (Nat.le_refl wider) more rest)

/-! ## A little more room for expressions -/

/-- Executes statements in order.  Expressions that stand alone are not executed but evaluated, with
room of their own. -/
def unshown (settings : Settings) (steps levels room : Nat) : List Stmt → Eval Unit
  | [] => pure ()
  | s :: rest => do
    match s with
    | .expression value =>
      let _ ← expr settings steps room value
    | s => stmt settings steps levels s
    unshown settings steps levels room rest

theorem unshown_continues (levels : Nat) {room wider : Nat} (h : room ≤ wider) (count : Nat)
    (body : List Stmt) :
    Continues False True (unshown settings count levels room body)
      (unshown settings count levels wider body) := by
  have hlevels : ContinuesFor False True settings count count := continuesFor (.refl _ _)
  induction body with
  | nil => exact .pure ()
  | cons s rest ih =>
    unfold unshown
    split
    · exact .bind (hlevels.expr room wider _ (.inr ⟨h, trivial⟩)) fun _ ↦ ih
    · exact .bind (hlevels.stmt levels levels _ (.refl _ _)) fun _ ↦ ih

/-- Without trace, executing an expression is to evaluate it with a little less room. -/
theorem stmt_expression (h : settings.traced = false) (count room : Nat) (e : Expr) :
    (stmt settings (count + 1) (room + 3) (.expression e) : Eval Unit) =
      (expr settings count room e >>= fun _ ↦ pure ()) := by
  unfold stmt
  change (checkText settings _ _ >>= fun _ ↦ traceStmt settings _ >>= fun _ ↦ _) = _
  rw [checkText_of_untraced h, traceStmt_of_untraced h]
  rfl

/-- One step more makes up for the execution of expressions, unless there is no room for it. -/
theorem unshown_continues_inTurn (h : settings.traced = false) (count levels : Nat)
    (body : List Stmt) :
    Continues True False (unshown settings count levels (levels - 3) body)
      (inTurn settings (count + 1) levels body) := by
  have hsteps : ContinuesFor True False settings count (count + 1) :=
    continuesFor (.inr ⟨Nat.le_succ count, trivial⟩)
  have hsame : ContinuesFor True False settings count count := continuesFor (.refl _ _)
  induction body with
  | nil => exact .pure ()
  | cons s rest ih =>
    unfold unshown inTurn
    split
    · rename_i e
      by_cases hlevels : levels < 3
      · rw [stmt_exhausted settings count hlevels]
        cases count with
        | zero =>
          rw [expr]
          exact .of_givesUp trivial fun _ ↦ Machine.proceeds_of_eq rfl rfl
        | succ count =>
          rw [expr_exhausted settings count (Nat.lt_of_le_of_lt (Nat.sub_le levels 3) hlevels)]
          exact .throw .exhausted
      · obtain ⟨room, rfl⟩ : ∃ below, levels = below + 3 := ⟨levels - 3, by omega⟩
        rw [stmt_expression h, bind_assoc, Nat.add_sub_cancel]
        exact .bind (hsame.expr room room e (.refl _ _)) fun _ ↦ ih
    · exact .bind (hsteps.stmt levels levels _ (.refl _ _)) fun _ ↦ ih

/-- Evaluating an expression takes no more than executing it. -/
theorem inTurn_continues_unshown (h : settings.traced = false) (count levels : Nat)
    (body : List Stmt) :
    Continues True True (inTurn settings count levels body)
      (unshown settings count levels levels body) := by
  have hsame : ContinuesFor True True settings count count := continuesFor (.refl _ _)
  induction body with
  | nil => exact .pure ()
  | cons s rest ih =>
    have hprints (e : Expr) : Moves Machine.Proceeds (expr settings count levels e >>= fun _ ↦
        unshown settings count levels levels rest) :=
      .bind (fun _ _ _ ↦ .trans) (hsame.expr levels levels e (.refl _ _)).prints fun _ ↦ ih.prints
    unfold unshown inTurn
    split
    · rename_i e
      cases count with
      | zero =>
        rw [stmt]
        exact .of_givesUp trivial (hprints e)
      | succ count =>
        by_cases hlevels : levels < 3
        · rw [stmt_exhausted settings count hlevels]
          exact .of_givesUp trivial (hprints e)
        · obtain ⟨room, rfl⟩ : ∃ below, levels = below + 3 := ⟨levels - 3, by omega⟩
          have hsteps : ContinuesFor True True settings count (count + 1) :=
            continuesFor (.inr ⟨Nat.le_succ count, trivial⟩)
          rw [stmt_expression h, bind_assoc]
          exact .bind (hsteps.expr room (room + 3) e (.inr ⟨Nat.le_add_right room 3, trivial⟩))
            fun _ ↦ ih
    · exact .bind (hsame.stmt levels levels _ (.refl _ _)) fun _ ↦ ih

end Lox.Eval
