import Lox.Proofs.Machine.Discipline
import Lox.Proofs.Machine.Operations
import Lox.Proofs.ProperTree

/-!
# Executing proper trees

A machine is proper if the bodies of all functions that are stored on it are proper.  Executing a
proper tree on a proper machine leaves a proper machine, and ends with success, with one fault of the
program, at a limit, or, inside a function, with a return.  No operation comes upon a fault that a
program cannot be blamed for.
-/

namespace Lox

open Stateful

def Value.Proper : Value → Prop
  | .closure function => ∀ s ∈ function.body, Stmt.Proper true s
  | _ => True

def Scopes.Proper (scopes : Scopes) : Prop :=
  ∀ (id : ScopeId) (scope : Scope) (name : String) (value : Value),
    scopes.all[id]? = some scope → scope.get? name = some value → value.Proper

def Machine.Proper (m : Machine) : Prop :=
  m.scopes.Proper

/-- An execution stopped because of a fault of the program or a limit, or because it returned from
the inside of a function. -/
def Halt.Proper (inside : Bool) : Halt → Prop
  | .returned value => inside = true ∧ value.Proper
  | .faulted _ => False
  | .failed _ | .exhausted | .unfinished => True

theorem Halt.Proper.mono {inside : Bool} {halt : Halt} (h : halt.Proper false) :
    halt.Proper inside := by
  cases halt with
  | returned value => cases h.1
  | faulted fault => exact h
  | failed | exhausted | unfinished => trivial

/-! ## Scopes -/

namespace Scopes

theorem Proper.push {scopes : Scopes} (h : scopes.Proper) (enclosing : Option ScopeId) :
    (scopes.push enclosing).Proper := by
  intro id scope name value hscope hvalue
  simp only [Scopes.push, Array.getElem?_push] at hscope
  split at hscope
  · cases hscope
    cases hvalue
  · exact h id scope name value hscope hvalue

/-- Storing a proper value leaves a proper store. -/
theorem Proper.define {scopes : Scopes} (h : scopes.Proper) {value : Value} (hvalue : value.Proper)
    (id : ScopeId) (name : String) : (scopes.define id name value).Proper := by
  intro id' scope name' value' hscope hvalue'
  simp only [Scopes.define, Array.getElem?_modify] at hscope
  split at hscope
  · obtain ⟨old, hold, rfl⟩ := Option.map_eq_some_iff.mp hscope
    rw [Scope.get?_set] at hvalue'
    split at hvalue'
    · cases hvalue'
      exact hvalue
    · exact h id' old name' value' hold hvalue'
  · exact h id' scope name' value' hscope hvalue'

/-- What is found in a proper store is proper. -/
theorem Proper.search {scopes : Scopes} (h : scopes.Proper) {name : String} {count : Nat}
    {id owner : ScopeId} {value : Value} (hfound : scopes.search name count id = some (owner, value)) :
    value.Proper := by
  induction count generalizing id with
  | zero => cases hfound
  | succ count ih =>
    unfold Scopes.search at hfound
    split at hfound
    · cases hfound
    · rename_i scope hscope
      split at hfound
      · rename_i value' hvalue
        cases hfound
        exact h _ scope name _ hscope hvalue
      · split at hfound
        · exact ih hfound
        · cases hfound

end Scopes

/-- New globals hold no functions of a program. -/
theorem Machine.Proper.renewed {m : Machine} (h : m.Proper) : m.renewed.Proper := by
  have hpushed : (m.scopes.push none).Proper := Scopes.Proper.push h none
  have hclock : (Value.native .clock).Proper := trivial
  exact hpushed.define hclock m.scopes.next Native.clock.name

theorem Machine.fresh_proper (console : Console) (readings : Nat) :
    (Machine.fresh console readings).Proper := by
  apply Machine.Proper.renewed
  intro id scope name value hscope
  cases hscope

/-! ## Operations -/

namespace Eval

/-- Executions on proper machines leave proper machines, on which the same calls are in progress.
The mode tells whether they take place inside a function. -/
def properly (settings : Settings) : Discipline Machine where
  settings
  Mode := Bool
  inner := false
  applied := false
  bound := false
  body := true
  block := id
  valid := Machine.Proper
  keeps _ m m' := m'.frames = m.frames
  stops inside m halt m' := m'.Proper ∧ m'.frames = m.frames ∧ halt.Proper inside
  value _ := Value.Proper
  expr := Expr.Proper
  stmt := Stmt.Proper
  fits f vs := ∃ name, f.callable? = some (name, vs.length)
  calls _ _ _ _ := True
  roomy _ := True

variable {settings : Settings} {inside : Bool} {m : Machine}

section

variable {α : Type} {good : Machine → α → Prop}

theorem fail_proper {p : Eval α} {cause : RuntimeCause} {token : Token}
    (h : p m = fail cause token m) (hm : m.Proper) : (properly settings).At inside m good p :=
  .of_error h ⟨hm, rfl, trivial⟩

/-- A context in which the same calls are in progress at the end as at the beginning. -/
theorem surrounds_proper {mode outer : Bool} {context : Context} {good : α → Prop}
    (hmode : ∀ halt : Halt, halt.Proper mode → halt.Proper outer)
    (henter : (Host.enter context m).Proper) :
    (properly settings).Surrounds mode outer context m (fun _ ↦ good) where
  valid := henter
  carries _ hv := hv
  leave {r} h := by
    have hleft {after : Machine} (hafter : after.Proper) :
        (after.left context m.current).Proper := by
      cases context <;> exact hafter
    cases r with
    | ok a after =>
      rw [Machine.leave_ok h.2.1]
      exact ⟨hleft h.1, Machine.left_frames h.2.1 _, h.2.2⟩
    | error halt after =>
      have hreport : (context.report after halt).Proper outer := by
        have := hmode halt h.2.2
        cases context with
        | job | scope => exact this
        | call => cases halt <;> exact this
      rw [Machine.leave_error h.2.1]
      exact ⟨hleft h.1, Machine.left_frames h.2.1 _, hreport⟩

end

/-- A proper expression is evaluated properly if its parts are. -/
theorem expr_step_proper {e : Expr} (h : e.Proper) : (properly settings).ExprStep e := by
  cases h with
  | literal a => exact fun _ _ ↦ trivial
  | var name =>
    intro m hm
    rcases lookup_cases name m with ⟨owner, v, hfound, heq⟩ | ⟨-, heq⟩
    · exact .of_ok heq hm rfl (Scopes.Proper.search hm hfound)
    · exact fail_proper heq hm
  | assign name hvalue =>
    refine ⟨fun m v hm hv ↦ ?_, hvalue⟩
    rcases assign_cases name v m with ⟨owner, old, -, heq⟩ | ⟨-, heq⟩
    · exact .of_ok heq (Scopes.Proper.define hm hv owner name.lexeme) rfl trivial
    · exact fail_proper heq hm
  | @unary operator operand hoperator hoperand =>
    refine ⟨fun m x hm _ ↦ ?_, hoperand⟩
    rcases unary_cases (rfl : operator.kind = operator.kind) (rfl : x.atom? = x.atom?) with
      ⟨a, heq, -⟩ | ⟨cause, heq, -⟩ | ⟨hunknown, -⟩
    · exact .of_ok (congrFun heq m) hm rfl trivial
    · exact fail_proper (congrFun heq m) hm
    · simp only [Grammar.signs, List.mem_cons, List.not_mem_nil, or_false] at hoperator
      exact absurd hoperator (not_or.mpr hunknown)
  | @binary operator left right hoperator hleft hright =>
    refine ⟨fun m x y hm _ _ ↦ ?_, hleft, hright⟩
    rcases binary_cases (rfl : operator.kind = operator.kind) (rfl : x.atom? = x.atom?)
      (rfl : y.atom? = y.atom?) rfl with ⟨a, heq, -⟩ | ⟨cause, heq, -⟩ | ⟨hunknown, -⟩
    · exact .of_ok (congrFun heq m) hm rfl trivial
    · exact fail_proper (congrFun heq m) hm
    · rw [hoperator] at hunknown
      cases hunknown
  | logical _ hleft hright => exact ⟨hleft, hright⟩
  | call _ hcallee harguments => exact ⟨hcallee, harguments⟩
  | grouping h => exact h

/-- A proper statement is executed properly if its parts are. -/
theorem stmt_step_proper {s : Stmt} (h : s.Proper inside) :
    (properly settings).StmtStep inside s := by
  have hdefine (name : String) : (properly settings).HoldsOn inside Discipline.done (define name) :=
    fun m v hm hv ↦ .of_ok rfl (Scopes.Proper.define hm hv m.current name) rfl trivial
  have hprint (text : Value → String) :
      (properly settings).HoldsOn inside Discipline.done fun v ↦ print (text v) :=
    fun m v hm _ ↦ .of_ok rfl hm rfl trivial
  cases h with
  | block h => exact h
  | empty => trivial
  | expression h => exact ⟨hprint Value.source, h⟩
  | function name params h => exact ⟨fun m hm ↦ .of_ok rfl hm rfl h, hdefine name.lexeme⟩
  | branch hcondition hyes hno => exact ⟨hcondition, hyes, hno⟩
  | print h => exact ⟨hprint Value.display, h⟩
  | ret keyword h => exact ⟨fun m v hm hv ↦ ⟨hm, rfl, rfl, hv⟩, h⟩
  | declare name h => exact ⟨hdefine name.lexeme, h⟩
  | loop hcondition hbody => exact ⟨hcondition, hbody⟩

/-! ## Executions -/

/-- Nothing that proper programs are made of brings about a fault. -/
theorem properly_upheld (settings : Settings) : (properly settings).Upheld where
  refl _ := rfl
  trans h h' := h'.trans h
  stops_trans h h' := ⟨h'.1, h'.2.1.trans h, h'.2.2⟩
  keeps_lift _ h := h
  stops_lift _ h := ⟨h.1, h.2.1, h.2.2.mono⟩
  carries _ hv := hv
  calls_keeps _ _ := trivial
  roomy_keeps _ _ := trivial
  unfinished hm := ⟨hm, rfl, trivial⟩
  exhausted hm := ⟨hm, rfl, trivial⟩
  closure hf := hf
  expr_step := expr_step_proper
  stmt_step := stmt_step_proper
  during_expr _ hm := surrounds_proper (fun _ h ↦ h) hm
  during_stmt _ hm := surrounds_proper (fun _ h ↦ h) hm
  during_call hm _ _ := ⟨surrounds_proper (fun _ h ↦ h) hm, trivial⟩
  during_apply hm _ _ := surrounds_proper (fun _ h ↦ h) hm
  inFrame hm _ _ _ := surrounds_proper (fun _ h ↦ h) hm
  inBody hm _ := surrounds_proper (fun _ h ↦ h) (Scopes.Proper.push hm _)
  inBlock _ hm := surrounds_proper (fun _ h ↦ h) (Scopes.Proper.push hm _)
  notCallable _ hm := fail_proper rfl hm
  checkArity {m f name arity vs paren} hm _ hcallable := by
    change (properly settings).At false m _ (if vs.length = arity then pure () else _)
    split
    · rename_i harity
      exact .of_ok rfl hm rfl ⟨name, harity ▸ hcallable⟩
    · exact fail_proper rfl hm
  checkRoom {paren} m hm := by
    rcases checkRoom_cases settings paren m with ⟨-, heq⟩ | ⟨-, heq⟩
    · exact .of_ok heq hm rfl trivial
    · exact .of_error heq ⟨hm, rfl, trivial⟩
  traceCall {m vs} name hm _ := by
    obtain ⟨line, hline⟩ := traceCall_eq name vs
    exact .of_ok (hline settings m) hm rfl trivial
  bindParam name m v hm hv := .of_ok rfl (Scopes.Proper.define hm hv m.current name) rfl trivial
  keeps_body h := h
  stops_body {m halt m'} h hne := by
    refine ⟨h.1, h.2.1, ?_⟩
    cases halt with
    | returned v => exact absurd rfl (hne v)
    | failed | faulted | exhausted | unfinished => exact h.2.2
  returned _ h := ⟨h.1, h.2.1, h.2.2.2⟩
  nil _ := trivial
  readClock m hm := .of_ok rfl hm rfl trivial
  -- The number of arguments has been checked, and what can be called is a function.
  surplusArguments _ hfits := by
    obtain ⟨name, hname⟩ := hfits
    cases hname
  notFunction _ hfits := by
    obtain ⟨name, hname⟩ := hfits
    cases hname
  traceStmt {mode s} _ m hm := by
    obtain ⟨line, hline⟩ := traceStmt_eq s
    exact .of_ok (hline settings m) hm rfl trivial

/-- A proper program ends with success, with one fault of its own, or at a limit. -/
theorem program_proper (settings : Settings) (steps : Nat) (echo : Bool) {statements : List Stmt}
    (h : ∀ s ∈ statements, Stmt.Proper false s) :
    Maintains Machine.Proper (fun _ ↦ True) (Halt.Proper false)
      (program settings steps echo statements) := by
  intro m hm
  have hend := (properly_upheld settings).program_holds steps echo h m hm
  cases hp : program settings steps echo statements m with
  | ok a m' => exact ⟨(hend.ok hp).1, trivial⟩
  | error halt m' => exact ⟨(hend.error hp).1, (hend.error hp).2.2⟩

end Eval

end Lox
