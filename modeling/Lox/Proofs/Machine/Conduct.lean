import Lox.Proofs.Machine.Discipline
import Lox.Proofs.Machine.Operations

/-!
# What execution can do to a machine

Everything that executing a program does to a machine is made up of a few kinds of changes.  A
relation between machines that holds across each of them therefore holds across every execution,
however it ends.  Evaluating an expression declares nothing in a scope that is there already, and
executing a statement may, so there are two relations, one for each.

What is assigned to and what is declared can be read off the trees that are executed: those of the
program and those of the functions stored on the machine.  So a relation may depend on the names
that they assign to, and the one for statements also on the names that a statement declares in the
scope where it stands.  Besides, something can be said of the faults in which executions end.
-/

namespace Lox

open Stateful

/-! ## Names in trees -/

/-- All assignments in an expression are to names in `assigns`. -/
inductive Expr.KeepsTo (assigns : String → Prop) : Expr → Prop
  | literal (value : Atom) : KeepsTo assigns (.literal value)
  | var (name : Token) : KeepsTo assigns (.var name)
  | assign {name : Token} {value : Expr} (hname : assigns name.lexeme)
      (h : KeepsTo assigns value) : KeepsTo assigns (.assign name value)
  | unary (operator : Token) {operand : Expr} (h : KeepsTo assigns operand) :
      KeepsTo assigns (.unary operator operand)
  | binary (operator : Token) {left right : Expr} (hleft : KeepsTo assigns left)
      (hright : KeepsTo assigns right) : KeepsTo assigns (.binary operator left right)
  | logical (operator : Token) {left right : Expr} (hleft : KeepsTo assigns left)
      (hright : KeepsTo assigns right) : KeepsTo assigns (.logical operator left right)
  | call {callee : Expr} (paren : Token) {arguments : List Expr} (hcallee : KeepsTo assigns callee)
      (harguments : ∀ argument ∈ arguments, KeepsTo assigns argument) :
      KeepsTo assigns (.call callee paren arguments)
  | grouping {inner : Expr} (h : KeepsTo assigns inner) : KeepsTo assigns (.grouping inner)
  | void : KeepsTo assigns .void

/-- All assignments in a statement are to names in `assigns`, and what it declares in the scope
where it stands has a name in `declares`.  A block and the body of a function have scopes of their
own. -/
inductive Stmt.KeepsTo (assigns : String → Prop) : (declares : String → Prop) → Stmt → Prop
  | block {declares : String → Prop} {body : List Stmt}
      (h : ∀ s ∈ body, KeepsTo assigns (fun _ ↦ True) s) : KeepsTo assigns declares (.block body)
  | empty {declares : String → Prop} : KeepsTo assigns declares .empty
  | expression {declares : String → Prop} {value : Expr} (h : value.KeepsTo assigns) :
      KeepsTo assigns declares (.expression value)
  | function {declares : String → Prop} {name : Token} (params : List Token) {body : List Stmt}
      (hname : declares name.lexeme) (h : ∀ s ∈ body, KeepsTo assigns (fun _ ↦ True) s) :
      KeepsTo assigns declares (.function name params body)
  | branch {declares : String → Prop} {condition : Expr} {yes : Stmt} {no : Option Stmt}
      (hcondition : condition.KeepsTo assigns) (hyes : KeepsTo assigns declares yes)
      (hno : ∀ s ∈ no, KeepsTo assigns declares s) :
      KeepsTo assigns declares (.branch condition yes no)
  | print {declares : String → Prop} {value : Expr} (h : value.KeepsTo assigns) :
      KeepsTo assigns declares (.print value)
  | ret {declares : String → Prop} (keyword : Token) {value : Option Expr}
      (h : ∀ e ∈ value, e.KeepsTo assigns) : KeepsTo assigns declares (.ret keyword value)
  | declare {declares : String → Prop} {name : Token} {initial : Option Expr}
      (hname : declares name.lexeme) (h : ∀ e ∈ initial, e.KeepsTo assigns) :
      KeepsTo assigns declares (.declare name initial)
  | loop {declares : String → Prop} {condition : Expr} {body : Stmt}
      (hcondition : condition.KeepsTo assigns) (hbody : KeepsTo assigns declares body) :
      KeepsTo assigns declares (.loop condition body)
  | void {declares : String → Prop} : KeepsTo assigns declares .void

/-- Every expression keeps to all names. -/
theorem Expr.keepsTo_true : (e : Expr) → e.KeepsTo (fun _ ↦ True)
  | .literal value => .literal value
  | .var name => .var name
  | .assign _ value => .assign trivial value.keepsTo_true
  | .unary operator operand => .unary operator operand.keepsTo_true
  | .binary operator left right => .binary operator left.keepsTo_true right.keepsTo_true
  | .logical operator left right => .logical operator left.keepsTo_true right.keepsTo_true
  | .call callee paren _ => .call paren callee.keepsTo_true fun argument _ ↦ argument.keepsTo_true
  | .grouping inner => .grouping inner.keepsTo_true
  | .void => .void

/-- Every statement keeps to all names. -/
theorem Stmt.keepsTo_true : (s : Stmt) → s.KeepsTo (fun _ ↦ True) (fun _ ↦ True)
  | .block _ => .block fun s _ ↦ s.keepsTo_true
  | .empty => .empty
  | .expression value => .expression value.keepsTo_true
  | .function _ params _ => .function params trivial fun s _ ↦ s.keepsTo_true
  | .branch condition yes none => .branch condition.keepsTo_true yes.keepsTo_true nofun
  | .branch condition yes (some no) =>
    .branch condition.keepsTo_true yes.keepsTo_true fun _ h ↦
      Option.some.inj h ▸ no.keepsTo_true
  | .print value => .print value.keepsTo_true
  | .ret keyword _ => .ret keyword fun e _ ↦ e.keepsTo_true
  | .declare _ _ => .declare trivial fun e _ ↦ e.keepsTo_true
  | .loop condition body => .loop condition.keepsTo_true body.keepsTo_true
  | .void => .void

/-! ## What scopes hold -/

namespace Scopes

def held? (scopes : Scopes) (id : ScopeId) (name : String) : Option Value :=
  scopes.all[id]?.bind (·.get? name)

/-- A scope that is opened holds nothing. -/
@[simp]
theorem held?_push (scopes : Scopes) (enclosing : Option ScopeId) (id : ScopeId) (name : String) :
    (scopes.push enclosing).held? id name = scopes.held? id name := by
  unfold held? push
  rw [Array.getElem?_push]
  split
  · rename_i h
    rw [h, Array.getElem?_size]
    rfl
  · rfl

/-- What scopes hold after a declaration; one in a scope that does not exist changes nothing. -/
theorem held?_define (scopes : Scopes) (id : ScopeId) (name : String) (value : Value)
    (id' : ScopeId) (name' : String) :
    (scopes.define id name value).held? id' name' =
      if id' = id ∧ name' = name ∧ id < scopes.next then some value
      else scopes.held? id' name' := by
  unfold held? define next
  rw [Array.getElem?_modify]
  by_cases hid : id = id'
  · subst hid
    rw [if_pos rfl]
    by_cases hlt : id < scopes.all.size
    · rw [Array.getElem?_eq_getElem hlt]
      change (Scope.set _ name value).get? name' = _
      rw [Scope.get?_set]
      simp only [hlt, and_true, true_and]
      rfl
    · rw [Array.getElem?_eq_none (Nat.le_of_not_lt hlt)]
      simp [hlt]
  · rw [if_neg hid, if_neg fun h ↦ hid h.1.symm]

/-- No name is lost. -/
theorem isSome_held?_define {scopes : Scopes} {id id' : ScopeId} {name name' : String}
    (h : (scopes.held? id' name').isSome = true) (value : Value) :
    ((scopes.define id name value).held? id' name').isSome = true := by
  rw [held?_define]
  split
  · rfl
  · exact h

theorem held?_define_of_ne {scopes : Scopes} {id id' : ScopeId} {name name' : String}
    (h : id' = id → name' ≠ name) (value : Value) :
    (scopes.define id name value).held? id' name' = scopes.held? id' name' := by
  rw [held?_define, if_neg fun heq ↦ h heq.1 heq.2.1]

@[simp]
theorem next_push (scopes : Scopes) (enclosing : Option ScopeId) :
    (scopes.push enclosing).next = scopes.next + 1 :=
  Array.size_push _

@[simp]
theorem next_define (scopes : Scopes) (id : ScopeId) (name : String) (value : Value) :
    (scopes.define id name value).next = scopes.next :=
  Array.size_modify

/-- What is found for a name is held by the scope where it is found. -/
theorem held?_of_search {scopes : Scopes} {name : String} {count : Nat} {id owner : ScopeId}
    {value : Value} (h : scopes.search name count id = some (owner, value)) :
    scopes.held? owner name = some value := by
  induction count generalizing id with
  | zero => cases h
  | succ count ih =>
    unfold search at h
    split at h
    · cases h
    · rename_i here hhere
      split at h
      · rename_i value' hvalue
        cases h
        rw [held?, hhere]
        exact hvalue
      · split at h
        · exact ih h
        · cases h

end Scopes

/-! ## Functions on machines -/

def Value.KeepsTo (assigns : String → Prop) : Value → Prop
  | .closure function => ∀ s ∈ function.body, Stmt.KeepsTo assigns (fun _ ↦ True) s
  | _ => True

theorem Value.keepsTo_true (value : Value) : value.KeepsTo (fun _ ↦ True) := by
  cases value with
  | closure function => exact fun s _ ↦ s.keepsTo_true
  | atom | native => trivial

namespace Machine

def KeepsTo (assigns : String → Prop) (m : Machine) : Prop :=
  ∀ id name value, m.scopes.held? id name = some value → value.KeepsTo assigns

theorem keepsTo_true (m : Machine) : m.KeepsTo (fun _ ↦ True) :=
  fun _ _ value _ ↦ value.keepsTo_true

variable {assigns : String → Prop} {m : Machine}

/-- Storing a function that keeps to the names leaves a machine on which all functions do. -/
theorem KeepsTo.define (h : m.KeepsTo assigns) {value : Value} (hvalue : value.KeepsTo assigns)
    (id : ScopeId) (name : String) :
    { m with scopes := m.scopes.define id name value }.KeepsTo assigns := by
  intro id' name' value' hheld
  change (m.scopes.define id name value).held? id' name' = _ at hheld
  rw [Scopes.held?_define] at hheld
  split at hheld
  · cases hheld
    exact hvalue
  · exact h id' name' value' hheld

theorem KeepsTo.push (h : m.KeepsTo assigns) (enclosing : Option ScopeId) (current : ScopeId) :
    { m with scopes := m.scopes.push enclosing, current }.KeepsTo assigns := by
  intro id name value hheld
  change (m.scopes.push enclosing).held? id name = _ at hheld
  rw [Scopes.held?_push] at hheld
  exact h id name value hheld

end Machine

/-! ## Changes -/

/-- What holds across every change: `evaluates` across those that expressions can bring about,
`executes` across those that statements can bring about which declare names in `declares` in the
current scope.  Assignments are to names in `assigns`, and `fault` is true of every fault. -/
structure Conduct where
  assigns : String → Prop
  fault : Diagnostic → Prop
  evaluates : Machine → Machine → Prop
  executes : (declares : String → Prop) → Machine → Machine → Prop
  fail : ∀ (cause : RuntimeCause) (token : Token), fault (cause.diagnostic token)
  overflow : ∀ paren : Token, fault (.atToken .overflow paren Diagnostic.overflowMessage)
  located : ∀ (d : Diagnostic) backtrace, fault d → fault { d with backtrace }
  refl : ∀ m, evaluates m m
  trans : ∀ m m' m'', evaluates m m' → evaluates m' m'' → evaluates m m''
  executes_trans : ∀ declares m m' m'',
    executes declares m m' → executes declares m' m'' → executes declares m m''
  executes_of_evaluates : ∀ declares m m', evaluates m m' → executes declares m m'
  assign : ∀ (m : Machine) name value owner old, assigns name →
    m.scopes.resolve? m.current name = some (owner, old) →
    evaluates m { m with scopes := m.scopes.define owner name value }
  define : ∀ declares (m : Machine) name value, declares name →
    executes declares m { m with scopes := m.scopes.define m.current name value }
  makeClosure : ∀ declares (m : Machine),
    executes declares m { m with functions := m.functions + 1 }
  readClock : ∀ m : Machine, evaluates m { m with readings := m.readings + 1 }
  print : ∀ declares (m : Machine) line,
    executes declares m { m with console := m.console.print line }
  trace : ∀ (m : Machine) step, evaluates m { m with console := m.console.trace step }
  /-- A scope is opened, and left again at the end. -/
  scope : ∀ (m : Machine) enclosing after,
    executes (fun _ ↦ True)
      { m with scopes := m.scopes.push enclosing, current := m.scopes.next } after →
    evaluates m { after with current := m.current }
  /-- A call is made, and over at the end. -/
  frame : ∀ (m : Machine) frame after,
    evaluates { m with frames := m.frames.push frame } after →
    evaluates m { after with frames := after.frames.pop }

namespace Conduct

variable (c : Conduct)

def halts : Halt → Prop
  | .returned value => value.KeepsTo c.assigns
  | .failed d => c.fault d
  | .faulted _ | .exhausted | .unfinished => True

/-- What holds across the execution of a statement that declares names in `declares`, or across the
evaluation of an expression. -/
def changes : (declares : Option (String → Prop)) → Machine → Machine → Prop
  | none => c.evaluates
  | some declares => c.executes declares

theorem changes_of_evaluates {mode : Option (String → Prop)} {m m' : Machine}
    (h : c.evaluates m m') : c.changes mode m m' := by
  cases mode with
  | none => exact h
  | some declares => exact c.executes_of_evaluates declares m m' h

theorem changes_refl (mode : Option (String → Prop)) (m : Machine) : c.changes mode m m :=
  c.changes_of_evaluates (c.refl m)

/-- What holds across two changes holds across both. -/
theorem changes_trans {mode : Option (String → Prop)} {m m' m'' : Machine}
    (h : c.changes mode m m') (h' : c.changes mode m' m'') : c.changes mode m m'' := by
  cases mode with
  | none => exact c.trans m m' m'' h h'
  | some declares => exact c.executes_trans declares m m' m'' h h'

/-- Executions on machines whose functions keep to the names end on such machines, and the relation
holds between the machines where they begin and end. -/
def discipline (settings : Settings) : Discipline Machine where
  settings
  Mode := Option (String → Prop)
  inner := none
  applied := none
  bound := some fun _ ↦ True
  body := some fun _ ↦ True
  block _ := some fun _ ↦ True
  valid m := m.KeepsTo c.assigns
  keeps := c.changes
  stops mode m halt m' := m'.KeepsTo c.assigns ∧ c.changes mode m m' ∧ c.halts halt
  value _ v := v.KeepsTo c.assigns
  expr e := e.KeepsTo c.assigns
  stmt mode s := ∃ declares, mode = some declares ∧ s.KeepsTo c.assigns declares
  fits _ _ := True
  calls _ _ _ _ := True
  roomy _ := True

/-! ## Operations -/

section

variable {c} {settings : Settings} {mode : Option (String → Prop)} {α : Type}
  {good : Machine → α → Prop} {m : Machine}

/-- An operation that finds a fault. -/
theorem fail_at {p : Eval α} {cause : RuntimeCause} {token : Token}
    (h : p m = Eval.fail cause token m) (hm : m.KeepsTo c.assigns) :
    (c.discipline settings).At mode m good p :=
  .of_error h ⟨hm, c.changes_refl mode m, c.fail cause token⟩

theorem throw_at {p : Eval α} {fault : Fault} (h : p m = .error (.faulted fault) m)
    (hm : m.KeepsTo c.assigns) : (c.discipline settings).At mode m good p :=
  .of_error h ⟨hm, c.changes_refl mode m, trivial⟩

theorem pure_at {p : Eval α} {a : α} (h : p m = .ok a m) (hm : m.KeepsTo c.assigns)
    (hgood : good m a) : (c.discipline settings).At mode m good p :=
  .of_ok h hm (c.changes_refl mode m) hgood

end

variable (settings : Settings)

theorem lookup_holds (name : Token) :
    (c.discipline settings).Holds none (c.discipline settings).value (Eval.lookup name) := by
  intro m hm
  rcases Eval.lookup_cases name m with ⟨owner, value, hfound, heq⟩ | ⟨-, heq⟩
  · exact pure_at heq hm (hm owner name.lexeme value (Scopes.held?_of_search hfound))
  · exact fail_at heq hm

/-- An assignment is to a name in `assigns`, so it is among the changes that expressions may bring
about. -/
theorem assign_holds {name : Token} (hname : c.assigns name.lexeme) :
    (c.discipline settings).HoldsOn none Discipline.done (Eval.assign name) := by
  intro m value hm hvalue
  rcases Eval.assign_cases name value m with ⟨owner, old, hresolve, heq⟩ | ⟨-, heq⟩
  · exact .of_ok heq (hm.define hvalue owner name.lexeme)
      (c.assign m name.lexeme value owner old hname hresolve) trivial
  · exact fail_at heq hm

theorem unary_holds (operator : Token) :
    (c.discipline settings).HoldsOn none (c.discipline settings).value (Eval.unary operator) := by
  intro m x hm _
  rcases Eval.unary_cases (rfl : operator.kind = operator.kind) (rfl : x.atom? = x.atom?) with
    ⟨a, heq, -⟩ | ⟨cause, heq, -⟩ | ⟨-, heq, -⟩
  · exact pure_at (congrFun heq m) hm trivial
  · exact fail_at (congrFun heq m) hm
  · exact throw_at (congrFun heq m) hm

theorem binary_holds (operator : Token) (x y : Value) :
    (c.discipline settings).Holds none (c.discipline settings).value
      (Eval.binary operator x y) := by
  intro m hm
  rcases Eval.binary_cases (rfl : operator.kind = operator.kind) (rfl : x.atom? = x.atom?)
    (rfl : y.atom? = y.atom?) rfl with ⟨a, heq, -⟩ | ⟨cause, heq, -⟩ | ⟨-, heq, -⟩
  · exact pure_at (congrFun heq m) hm trivial
  · exact fail_at (congrFun heq m) hm
  · exact throw_at (congrFun heq m) hm

variable {settings}

/-- A declaration in the current scope is of a name in `declares`. -/
theorem define_holds {declares : String → Prop} {name : String} (hname : declares name) :
    (c.discipline settings).HoldsOn (some declares) Discipline.done (Eval.define name) :=
  fun m value hm hvalue ↦
    .of_ok rfl (hm.define hvalue m.current name) (c.define declares m name value hname) trivial

theorem reported_changes (settings : Settings) (line : String) (mode : Option (String → Prop))
    (m : Machine) : c.changes mode m (m.reported settings line) := by
  unfold Machine.reported
  cases settings.traced with
  | false => exact c.changes_refl mode m
  | true => exact c.changes_of_evaluates (c.trace m line)

theorem print_holds {declares : String → Prop} (text : Value → String) :
    (c.discipline settings).HoldsOn (some declares) Discipline.done fun v ↦ Eval.print (text v) :=
  fun m v hm _ ↦ .of_ok rfl hm (c.print declares m (text v)) trivial

/-- An expression that keeps to the names is evaluated as required if its parts are. -/
theorem expr_step {e : Expr} (h : e.KeepsTo c.assigns) : (c.discipline settings).ExprStep e := by
  cases h with
  | literal a => exact fun _ _ ↦ trivial
  | var name => exact c.lookup_holds settings name
  | assign hname hvalue => exact ⟨c.assign_holds settings hname, hvalue⟩
  | unary operator hoperand => exact ⟨c.unary_holds settings operator, hoperand⟩
  | binary operator hleft hright =>
    exact ⟨fun m x y hm _ _ ↦ c.binary_holds settings operator x y m hm, hleft, hright⟩
  | logical _ hleft hright => exact ⟨hleft, hright⟩
  | call _ hcallee harguments => exact ⟨hcallee, harguments⟩
  | grouping h => exact h
  | void => exact fun m hm ↦ ⟨hm, c.refl m, trivial⟩

/-- A statement that keeps to the names is executed as required if its parts are. -/
theorem stmt_step {declares : String → Prop} {s : Stmt} (h : s.KeepsTo c.assigns declares) :
    (c.discipline settings).StmtStep (some declares) s := by
  cases h with
  | block h => exact fun s hs ↦ ⟨_, rfl, h s hs⟩
  | empty => trivial
  | expression h => exact ⟨c.print_holds Value.source, h⟩
  | function params hname h =>
    exact ⟨fun m hm ↦ .of_ok rfl hm (c.makeClosure declares m) h, c.define_holds hname⟩
  | branch hcondition hyes hno =>
    exact ⟨hcondition, ⟨_, rfl, hyes⟩, fun s hs ↦ ⟨_, rfl, hno s hs⟩⟩
  | print h => exact ⟨c.print_holds Value.display, h⟩
  | ret keyword h =>
    exact ⟨fun m v hm hv ↦ ⟨hm, c.changes_refl _ m, hv⟩, h⟩
  | declare hname h => exact ⟨c.define_holds hname, h⟩
  | loop hcondition hbody => exact ⟨hcondition, _, rfl, hbody⟩
  | void => exact fun m hm ↦ ⟨hm, c.changes_refl _ m, trivial⟩

/-! ## Contexts -/

theorem job_surrounds {α : Type} (mode : Option (String → Prop)) (job : Job) {m : Machine}
    (hm : m.KeepsTo c.assigns) (good : Machine → α → Prop) :
    (c.discipline settings).Surrounds mode mode (.job job) m good :=
  ⟨hm, fun _ hv ↦ hv, id⟩

/-- A new scope is opened, and left again at the end. -/
theorem scope_surrounds {α : Type} {enclosing : Option ScopeId} (mode : Option (String → Prop))
    {m : Machine} (hm : m.KeepsTo c.assigns) {good : α → Prop} :
    (c.discipline settings).Surrounds (some fun _ ↦ True) mode (.scope enclosing) m
      (fun _ ↦ good) where
  valid := hm.push _ _
  carries _ hv := hv
  leave {r} h := by
    have hscope (after : Machine) := c.scope m (enclosing.getD m.current) after
    cases r with
    | ok a m' => exact ⟨h.1, c.changes_of_evaluates (hscope m' h.2.1), h.2.2⟩
    | error halt m' => exact ⟨h.1, c.changes_of_evaluates (hscope m' h.2.1), h.2.2⟩

theorem located_halts {halt : Halt} (h : c.halts halt) (frames : Array Frame) :
    c.halts (Eval.located frames halt) := by
  cases halt with
  | failed d => exact c.located d _ h
  | returned | faulted | exhausted | unfinished => exact h

/-- A call is made, and over at the end. -/
theorem call_surrounds {α : Type} (frame : Frame) {m : Machine} (hm : m.KeepsTo c.assigns)
    {good : α → Prop} :
    (c.discipline settings).Surrounds none none (.call frame) m (fun _ ↦ good) where
  valid := hm
  carries _ hv := hv
  leave {r} h := by
    have hframe (after : Machine) := c.frame m frame after
    have hempty {after : Machine} (h : after.frames.isEmpty = true)
        (hafter : c.evaluates { m with frames := m.frames.push frame } after) :
        c.evaluates m after :=
      Machine.pop_frames_of_isEmpty h ▸ hframe after hafter
    cases r with
    | ok a m' =>
      rw [Machine.leave_call_ok]
      split
      · exact ⟨h.1, hempty ‹_› h.2.1, trivial⟩
      · exact ⟨h.1, hframe m' h.2.1, h.2.2⟩
    | error halt m' =>
      rw [Machine.leave_call_error]
      split
      · exact ⟨h.1, hempty ‹_› h.2.1, trivial⟩
      · exact ⟨h.1, hframe m' h.2.1, c.located_halts h.2.2 _⟩

/-! ## Executions -/

/-- Every change on the way is one of those that the relation holds across. -/
theorem upheld (settings : Settings) : (c.discipline settings).Upheld where
  refl _ := c.changes_refl _ _
  trans := c.changes_trans
  stops_trans h h' := ⟨h'.1, c.changes_trans h h'.2.1, h'.2.2⟩
  keeps_lift _ := c.changes_of_evaluates
  stops_lift _ h := ⟨h.1, c.changes_of_evaluates h.2.1, h.2.2⟩
  carries _ hv := hv
  calls_keeps _ _ := trivial
  roomy_keeps _ _ := trivial
  unfinished hm := ⟨hm, c.changes_refl _ _, trivial⟩
  exhausted hm := ⟨hm, c.changes_refl _ _, trivial⟩
  closure hf s hs := ⟨_, rfl, hf s hs⟩
  expr_step := c.expr_step
  stmt_step := by
    rintro mode s ⟨declares, rfl, hs⟩
    exact c.stmt_step hs
  during_expr _ hm := c.job_surrounds _ _ hm _
  during_stmt _ hm := c.job_surrounds _ _ hm _
  during_call hm _ _ := ⟨c.job_surrounds _ _ hm _, trivial⟩
  during_apply hm _ _ := c.job_surrounds _ _ hm _
  inFrame hm _ _ _ := c.call_surrounds _ hm
  inBody hm _ := c.scope_surrounds none hm
  inBlock _ hm := c.scope_surrounds _ hm
  notCallable m hm := fail_at rfl hm
  checkArity {m f name arity vs paren} hm _ _ := by
    change (c.discipline settings).At none m _ (if vs.length = arity then pure () else _)
    split
    · exact pure_at rfl hm trivial
    · exact fail_at rfl hm
  checkRoom {paren} m hm := by
    rcases Eval.checkRoom_cases settings paren m with ⟨-, heq⟩ | ⟨-, heq⟩
    · exact pure_at heq hm trivial
    · exact .of_error heq ⟨hm, c.refl m, c.overflow paren⟩
  traceCall {m vs} name hm _ := by
    obtain ⟨line, hline⟩ := Eval.traceCall_eq name vs
    exact .of_ok (hline settings m) hm (c.reported_changes settings line none m) trivial
  bindParam name := c.define_holds trivial
  keeps_body h := h
  stops_body h _ := h
  returned _ h := h
  nil _ := trivial
  readClock m hm := .of_ok rfl hm (c.readClock m) trivial
  surplusArguments hm _ := ⟨hm, c.refl _, trivial⟩
  notFunction hm _ := ⟨hm, c.refl _, trivial⟩
  traceStmt {mode s} _ m hm := by
    obtain ⟨line, hline⟩ := Eval.traceStmt_eq s
    exact .of_ok (hline settings m) hm (c.reported_changes settings line mode m) trivial

section

variable {c} {mode : Option (String → Prop)} {m : Machine}

/-- The relation holds across an execution, however it ends. -/
theorem changes_final {α : Type} {good : Machine → α → Prop} {p : Eval α}
    (h : (c.discipline settings).At mode m good p) : c.changes mode m (final (p m)) := by
  cases hp : p m with
  | ok a m' => exact (h.ok hp).2.1
  | error halt m' => exact (h.error hp).2.1

variable (hm : m.KeepsTo c.assigns) (settings : Settings) (steps levels : Nat)
include hm

/-- Evaluating an expression is a change that expressions can bring about, however it ends. -/
theorem expr_changes {e : Expr} (he : e.KeepsTo c.assigns) :
    c.evaluates m (final (Eval.expr settings steps levels e m)) :=
  changes_final (((c.upheld settings).holdsFor steps).expr levels e he m hm)

/-- Executing a statement is a change that statements can bring about, however it ends. -/
theorem stmt_changes {declares : String → Prop} {s : Stmt} (hs : s.KeepsTo c.assigns declares) :
    c.executes declares m (final (Eval.stmt settings steps levels s m)) :=
  changes_final (((c.upheld settings).holdsFor steps).stmt levels _ s ⟨declares, rfl, hs⟩ m hm)

omit hm in
/-- A program ends as its statements do, whether or not it shows its values. -/
theorem program_holds (echo : Bool) {declares : String → Prop} {statements : List Stmt}
    (h : ∀ s ∈ statements, s.KeepsTo c.assigns declares) :
    (c.discipline settings).Holds (some declares) Discipline.done
      (Eval.program settings steps echo statements) :=
  (c.upheld settings).program_holds steps echo fun s hs ↦ ⟨declares, rfl, h s hs⟩

end

end Conduct

end Lox
