import Lox.Proofs.Machine.Coupling
import Lox.Proofs.Machine.Discipline

/-!
# Where texts come from

A program can write texts down and put them one behind the other, and there is no other way to come
by a text.  So if the texts written in a program and those on the machine belong to a set, and
concatenation does not lead out of it, then all texts that come up in the execution belong to it:
those held in scopes on every machine that is passed, and those that expressions evaluate to,
wherever they stand.
-/

namespace Lox

open Stateful

/-! ## Trees, values and machines -/

def Atom.TextIn (texts : String → Prop) : Atom → Prop
  | .text s => texts s
  | .nil | .bool _ | .number _ => True

inductive Expr.TextsIn (texts : String → Prop) : Expr → Prop
  | literal {value : Atom} (h : value.TextIn texts) : TextsIn texts (.literal value)
  | var (name : Token) : TextsIn texts (.var name)
  | assign (name : Token) {value : Expr} (h : TextsIn texts value) :
      TextsIn texts (.assign name value)
  | unary (operator : Token) {operand : Expr} (h : TextsIn texts operand) :
      TextsIn texts (.unary operator operand)
  | binary (operator : Token) {left right : Expr} (hleft : TextsIn texts left)
      (hright : TextsIn texts right) : TextsIn texts (.binary operator left right)
  | logical (operator : Token) {left right : Expr} (hleft : TextsIn texts left)
      (hright : TextsIn texts right) : TextsIn texts (.logical operator left right)
  | call {callee : Expr} (paren : Token) {arguments : List Expr} (hcallee : TextsIn texts callee)
      (harguments : ∀ argument ∈ arguments, TextsIn texts argument) :
      TextsIn texts (.call callee paren arguments)
  | grouping {inner : Expr} (h : TextsIn texts inner) : TextsIn texts (.grouping inner)
  | void : TextsIn texts .void

inductive Stmt.TextsIn (texts : String → Prop) : Stmt → Prop
  | block {body : List Stmt} (h : ∀ s ∈ body, TextsIn texts s) : TextsIn texts (.block body)
  | empty : TextsIn texts .empty
  | expression {value : Expr} (h : value.TextsIn texts) : TextsIn texts (.expression value)
  | function (name : Token) (params : List Token) {body : List Stmt}
      (h : ∀ s ∈ body, TextsIn texts s) : TextsIn texts (.function name params body)
  | branch {condition : Expr} {yes : Stmt} {no : Option Stmt} (hcondition : condition.TextsIn texts)
      (hyes : TextsIn texts yes) (hno : ∀ s ∈ no, TextsIn texts s) :
      TextsIn texts (.branch condition yes no)
  | print {value : Expr} (h : value.TextsIn texts) : TextsIn texts (.print value)
  | ret (keyword : Token) {value : Option Expr} (h : ∀ e ∈ value, e.TextsIn texts) :
      TextsIn texts (.ret keyword value)
  | declare (name : Token) {initial : Option Expr} (h : ∀ e ∈ initial, e.TextsIn texts) :
      TextsIn texts (.declare name initial)
  | loop {condition : Expr} {body : Stmt} (hcondition : condition.TextsIn texts)
      (hbody : TextsIn texts body) : TextsIn texts (.loop condition body)
  | void : TextsIn texts .void

/-- A text is in `texts`, and so are those written in the body of a function. -/
def Value.TextsIn (texts : String → Prop) : Value → Prop
  | .atom value => value.TextIn texts
  | .closure function => ∀ s ∈ function.body, Stmt.TextsIn texts s
  | .native _ => True

/-- All texts held in scopes are in `texts`, and those written in functions that are held there. -/
def Machine.TextsIn (texts : String → Prop) (m : Machine) : Prop :=
  ∀ id name value, m.scopes.held? id name = some value → value.TextsIn texts

def Halt.TextsIn (texts : String → Prop) : Halt → Prop
  | .returned value => value.TextsIn texts
  | .failed _ | .faulted _ | .exhausted | .unfinished => True

namespace Machine

variable {texts : String → Prop} {m : Machine} (h : m.TextsIn texts)
include h

/-- Storing a value whose texts are in `texts` keeps all texts there. -/
theorem TextsIn.define {value : Value} (hvalue : value.TextsIn texts) (id : ScopeId)
    (name : String) : { m with scopes := m.scopes.define id name value }.TextsIn texts := by
  intro id' name' value' hheld
  change (m.scopes.define id name value).held? id' name' = _ at hheld
  rw [Scopes.held?_define] at hheld
  split at hheld
  · cases hheld
    exact hvalue
  · exact h id' name' value' hheld

theorem TextsIn.push (enclosing : Option ScopeId) :
    { m with scopes := m.scopes.push enclosing }.TextsIn texts := by
  intro id name value hheld
  change (m.scopes.push enclosing).held? id name = _ at hheld
  rw [Scopes.held?_push] at hheld
  exact h id name value hheld

/-- The functions that a machine provides are no texts. -/
theorem TextsIn.renewed : m.renewed.TextsIn texts := by
  have hclock : (Value.native .clock).TextsIn texts := trivial
  exact (TextsIn.push h none).define hclock m.scopes.next Native.clock.name

end Machine

theorem Machine.fresh_textsIn (texts : String → Prop) (console : Console) (readings : Nat) :
    (Machine.fresh console readings).TextsIn texts := by
  apply Machine.TextsIn.renewed
  intro id name value hheld
  cases hheld

/-! ## Recorded operations -/

/-- All texts written in what is to be executed are in `texts`, and those among its values. -/
def Task.TextsIn (texts : String → Prop) : Task → Prop
  | .expr e => e.TextsIn texts
  | .call f _ values | .apply f values =>
    f.TextsIn texts ∧ ∀ value ∈ values, Value.TextsIn texts value
  | .stmt s => s.TextsIn texts

structure Moment.TextsIn (texts : String → Prop) (moment : Moment) : Prop where
  machine : moment.machine.TextsIn texts
  path : ∀ job ∈ moment.path, job.task.TextsIn texts

structure Record.TextsIn (texts : String → Prop) (record : Record) : Prop where
  now : record.toMoment.TextsIn texts
  moments : ∀ moment ∈ record.moments, moment.TextsIn texts

namespace Record

variable {texts : String → Prop} {record : Record}

theorem start_textsIn {m : Machine} (h : m.TextsIn texts) : (start m).TextsIn texts := by
  have hmoment : Moment.TextsIn texts ⟨[], m⟩ := ⟨h, List.forall_mem_nil _⟩
  exact ⟨hmoment, List.forall_mem_singleton.mpr hmoment⟩

variable (h : record.TextsIn texts)
include h

theorem TextsIn.noted : record.noted.TextsIn texts :=
  ⟨h.now, List.forall_mem_cons.mpr ⟨h.now, h.moments⟩⟩

/-- Another machine may take the place of the current one. -/
theorem TextsIn.moved {m : Machine} (hm : m.TextsIn texts) :
    { record with machine := m }.TextsIn texts :=
  ⟨⟨hm, h.now.path⟩, h.moments⟩

theorem TextsIn.reach {m : Machine} (hm : m.TextsIn texts) : (record.reach m).TextsIn texts :=
  (h.moved hm).noted

theorem TextsIn.begun {job : Job} (hjob : job.task.TextsIn texts) :
    (record.begun job).TextsIn texts :=
  have hnow : { record with path := job :: record.path }.TextsIn texts :=
    ⟨⟨h.now.machine, List.forall_mem_cons.mpr ⟨hjob, h.now.path⟩⟩, h.moments⟩
  hnow.noted

theorem TextsIn.done : record.done.TextsIn texts :=
  ⟨⟨h.now.machine, fun job hjob ↦ h.now.path job (List.mem_of_mem_tail hjob)⟩, h.noted.moments⟩

theorem TextsIn.blame (halt : Halt) : (record.blame halt).TextsIn texts := by
  cases halt <;> exact ⟨h.now, h.moments⟩

end Record

namespace Course

variable {texts : String → Prop} {settings : Settings} {α : Type} {good : α → Prop}
  {record : Record}

/-- Executions come upon texts in `texts` only. -/
def retaining (texts : String → Prop) (settings : Settings) : Discipline Record where
  settings
  Mode := Unit
  inner := ()
  applied := ()
  bound := ()
  body := ()
  block := id
  valid := Record.TextsIn texts
  keeps _ _ _ := True
  stops _ _ halt record := record.TextsIn texts ∧ halt.TextsIn texts
  value _ := Value.TextsIn texts
  expr := Expr.TextsIn texts
  stmt _ := Stmt.TextsIn texts
  fits _ _ := True
  calls _ _ _ _ := True
  roomy _ := True

/-- An operation comes upon no new texts if its answer and the machine after it have none. -/
theorem once_ok (h : record.TextsIn texts) {p : Eval α} {a : α} {m : Machine}
    (hp : p record.machine = .ok a m) (hm : m.TextsIn texts) (ha : good a) :
    (retaining texts settings).At () record (fun _ ↦ good) (Host.perform p) := by
  have hdone : once p record = .ok a (record.reach m) := by
    rw [once, hp]
  exact .of_ok hdone (h.reach hm) trivial ha

/-- An operation that fails leaves everything as it was. -/
theorem once_error (h : record.TextsIn texts) {p : Eval α} {halt : Halt}
    (hp : p record.machine = .error halt record.machine) (hhalt : halt.TextsIn texts) :
    (retaining texts settings).At () record (fun _ ↦ good) (Host.perform p) := by
  have hdone : once p record = .error halt ((record.reach record.machine).blame halt) := by
    rw [once, hp]
  exact .of_error hdone ⟨(h.reach h.now.machine).blame halt, hhalt⟩

theorem job_surrounds (h : record.TextsIn texts) {job : Job} (hjob : job.task.TextsIn texts) :
    (retaining texts settings).Surrounds () () (.job job) record (fun _ ↦ good) where
  valid := h.begun hjob
  carries _ hv := hv
  leave {r} hends := by
    cases r with
    | ok a after => exact ⟨hends.1.done, trivial, hends.2.2⟩
    | error halt after => exact ⟨hends.1.done, hends.2⟩

theorem scope_surrounds (h : record.TextsIn texts) (enclosing : Option ScopeId) :
    (retaining texts settings).Surrounds () () (.scope enclosing) record (fun _ ↦ good) where
  valid := (h.reach (h.now.machine.push _)).reach (h.now.machine.push _)
  carries _ hv := hv
  leave {r} hends := by
    cases r with
    | ok a after => exact ⟨hends.1.reach hends.1.now.machine, trivial, hends.2.2⟩
    | error halt after => exact ⟨hends.1.reach hends.1.now.machine, hends.2⟩

theorem call_surrounds (h : record.TextsIn texts) (frame : Frame) :
    (retaining texts settings).Surrounds () () (.call frame) record (fun _ ↦ good) where
  valid := h.moved h.now.machine
  carries _ hv := hv
  leave {r} hends := by
    cases r with
    | ok a after =>
      change (retaining texts settings).Ends () record _
        (resume after (Host.leave (.call frame) record.machine.current (.ok a after.machine)))
      rw [Machine.leave_call_ok]
      split
      · exact ⟨hends.1, trivial⟩
      · exact ⟨hends.1.moved hends.1.now.machine, trivial, hends.2.2⟩
    | error halt after =>
      have hlocated : (Eval.located after.machine.frames halt).TextsIn texts := by
        cases halt <;> exact hends.2
      change (retaining texts settings).Ends () record _
        (resume after (Host.leave (.call frame) record.machine.current (.error halt after.machine)))
      rw [Machine.leave_call_error]
      split
      · exact ⟨hends.1, trivial⟩
      · exact ⟨hends.1.moved hends.1.now.machine, hlocated⟩

/-! ## Trees -/

/-- Only concatenation makes a text, out of two others. -/
theorem expr_step (happend : ∀ s t, texts s → texts t → texts (s ++ t)) {e : Expr}
    (h : e.TextsIn texts) : (retaining texts settings).ExprStep e := by
  cases h with
  | literal h => exact fun _ _ ↦ h
  | var name =>
    intro record hrecord
    rcases Eval.lookup_cases name record.machine with ⟨owner, v, hfound, heq⟩ | ⟨-, heq⟩
    · have hm := hrecord.now.machine
      exact once_ok hrecord heq hm (hm owner name.lexeme v (Scopes.held?_of_search hfound))
    · exact once_error hrecord heq trivial
  | assign name hvalue =>
    refine ⟨fun record v hrecord hv ↦ ?_, hvalue⟩
    rcases Eval.assign_cases name v record.machine with ⟨owner, old, -, heq⟩ | ⟨-, heq⟩
    · exact once_ok hrecord heq
        (hrecord.now.machine.define hv owner name.lexeme) trivial
    · exact once_error hrecord heq trivial
  | unary operator hoperand =>
    refine ⟨fun record x hrecord _ ↦ ?_, hoperand⟩
    rcases Eval.unary_cases (rfl : operator.kind = operator.kind) (rfl : x.atom? = x.atom?) with
      ⟨a, heq, -, ha⟩ | ⟨cause, heq, -⟩ | ⟨-, heq, -⟩
    · refine once_ok hrecord (congrFun heq _) hrecord.now.machine ?_
      cases a with
      | text s => exact absurd rfl (ha s)
      | nil | bool | number => trivial
    · exact once_error hrecord (congrFun heq _) trivial
    · exact once_error hrecord (congrFun heq _) trivial
  | binary operator hleft hright =>
    refine ⟨fun record x y hrecord hx hy ↦ ?_, hleft, hright⟩
    rcases Eval.binary_cases (rfl : operator.kind = operator.kind) (rfl : x.atom? = x.atom?)
      (rfl : y.atom? = y.atom?) rfl with ⟨a, heq, -, ha⟩ | ⟨cause, heq, -⟩ | ⟨-, heq, -⟩
    · refine once_ok hrecord (congrFun heq _) hrecord.now.machine ?_
      cases a with
      | text s =>
        obtain ⟨t, u, rfl, rfl, rfl⟩ := ha s rfl
        exact happend t u hx hy
      | nil | bool | number => trivial
    · exact once_error hrecord (congrFun heq _) trivial
    · exact once_error hrecord (congrFun heq _) trivial
  | logical operator hleft hright => exact ⟨hleft, hright⟩
  | call paren hcallee harguments => exact ⟨hcallee, harguments⟩
  | grouping h => exact h
  | void => exact fun record hrecord ↦ ⟨hrecord, trivial⟩

theorem define_holds (name : String) :
    (retaining texts settings).HoldsOn () Discipline.done (Eval.define name) :=
  fun record _ hrecord hv ↦ once_ok hrecord rfl
    (hrecord.now.machine.define hv record.machine.current name) trivial

/-- A statement comes upon the texts written in it. -/
theorem stmt_step {s : Stmt} (h : s.TextsIn texts) : (retaining texts settings).StmtStep () s := by
  have hprint (text : Value → String) :
      (retaining texts settings).HoldsOn () Discipline.done fun v ↦ Eval.print (text v) :=
    fun _ _ hrecord _ ↦ once_ok hrecord rfl hrecord.now.machine trivial
  cases h with
  | block h => exact h
  | empty => trivial
  | expression h => exact ⟨hprint Value.source, h⟩
  | function name params h =>
    exact ⟨fun record hrecord ↦ once_ok hrecord rfl hrecord.now.machine h, define_holds name.lexeme⟩
  | branch hcondition hyes hno => exact ⟨hcondition, hyes, hno⟩
  | print h => exact ⟨hprint Value.display, h⟩
  | ret keyword h => exact ⟨fun record v hrecord hv ↦ ⟨hrecord, hv⟩, h⟩
  | declare name h => exact ⟨define_holds name.lexeme, h⟩
  | loop hcondition hbody => exact ⟨hcondition, hbody⟩
  | void => exact fun record hrecord ↦ ⟨hrecord, trivial⟩

/-! ## Executions -/

/-- Texts come up where they are written, where they are held, and where they are put one behind the
other. -/
theorem retaining_upheld (happend : ∀ s t, texts s → texts t → texts (s ++ t))
    (settings : Settings) : (retaining texts settings).Upheld where
  refl _ := trivial
  trans _ _ := trivial
  stops_trans _ h := h
  keeps_lift _ _ := trivial
  stops_lift _ h := h
  carries _ hv := hv
  calls_keeps _ _ := trivial
  roomy_keeps _ _ := trivial
  unfinished h := ⟨h, trivial⟩
  exhausted h := ⟨h, trivial⟩
  closure hf := hf
  expr_step := expr_step happend
  stmt_step := stmt_step
  during_expr he h := job_surrounds h he
  during_stmt hs h := job_surrounds h hs
  during_call h hf hvs := ⟨job_surrounds h ⟨hf, hvs⟩, trivial⟩
  during_apply h hf hvs := job_surrounds h ⟨hf, hvs⟩
  inFrame h _ _ _ := call_surrounds h _
  inBody h _ := scope_surrounds h _
  inBlock _ h := scope_surrounds h none
  notCallable _ h := once_error h rfl trivial
  checkArity {record f name arity vs paren} h _ _ := by
    by_cases harity : vs.length = arity
    · exact once_ok h (congrFun (if_pos harity) _) h.now.machine trivial
    · exact once_error h (congrFun (if_neg harity) _) trivial
  checkRoom {paren} record h := by
    rcases Eval.checkRoom_cases settings paren record.machine with ⟨-, heq⟩ | ⟨-, heq⟩
    · exact once_ok h heq h.now.machine trivial
    · exact once_error h heq trivial
  traceCall {record vs} name h _ := by
    obtain ⟨line, hline⟩ := Eval.traceCall_eq name vs
    exact once_ok h (hline settings _) h.now.machine trivial
  bindParam := define_holds
  keeps_body h := h
  stops_body h _ := h
  returned _ h := ⟨h.1, trivial, h.2⟩
  nil _ := trivial
  readClock record h := once_ok h rfl h.now.machine trivial
  surplusArguments h _ := ⟨h, trivial⟩
  notFunction h _ := ⟨h, trivial⟩
  traceStmt {mode s} _ record h := by
    obtain ⟨line, hline⟩ := Eval.traceStmt_eq s
    exact once_ok h (hline settings _) h.now.machine trivial

section

variable (happend : ∀ s t, texts s → texts t → texts (s ++ t)) (settings : Settings) (steps : Nat)
include happend

/-- Whatever a program comes upon, all texts are in `texts`. -/
theorem program_textsIn (echo : Bool) {statements : List Stmt}
    (h : ∀ s ∈ statements, Stmt.TextsIn texts s) {m : Machine} (hm : m.TextsIn texts) :
    (final (program settings steps echo statements (.start m))).TextsIn texts := by
  have hholds : (retaining texts settings).Holds () Discipline.done
      (program settings steps echo statements) :=
    (retaining_upheld happend settings).program_holds steps echo h
  have hend := hholds _ (Record.start_textsIn hm)
  cases hp : program settings steps echo statements (.start m) with
  | ok a record => exact (hend.ok hp).1
  | error halt record => exact (hend.error hp).1

/-- An expression that is evaluated in the course of an execution comes to a value whose texts are
in `texts`. -/
theorem value_textsIn {moment : Moment} (hmoment : moment.TextsIn texts) {e : Expr} {n k : Nat}
    {others : List Job} (hpath : moment.path = ⟨.expr e, n, k⟩ :: others) {v : Value} {m' : Machine}
    (hv : Eval.expr settings n k e moment.machine = .ok v m') : v.TextsIn texts := by
  have he : e.TextsIn texts := hmoment.path ⟨.expr e, n, k⟩ (hpath ▸ List.mem_cons_self)
  have hend := ((retaining_upheld happend settings).holdsFor n).expr k e he _
    (Record.start_textsIn hmoment.machine)
  rw [← Coupling.expr_ended] at hv
  cases hp : Eval.expr settings n k e (Record.start moment.machine) with
  | ok w record =>
    rw [hp] at hv
    cases hv
    exact (hend.ok hp).2.2
  | error halt record =>
    rw [hp] at hv
    cases hv

end

end Course

end Lox
