import Lox.Machine.Execute
import Lox.Proofs.Stateful
import Mathlib.Data.List.Forall2

/-!
# Executions that correspond

Trees that correspond are executed on two hosts.  If all operations of which executions are made end
alike where they begin alike, then so do the executions.  What it means to begin and to end alike is
left open: the two hosts may number their scopes differently, the trees may stand at different
places, or both executions may be the same, of which something is to be shown.

The way through the cases of the evaluator is gone here and nowhere else.  Everything that holds of
all executions is an instance of it, for which only the operations have to be looked at.
-/

namespace Lox

open Stateful Host

/-- What corresponds on two hosts.  The mode of an execution tells where it takes place: expressions
and calls have the mode `inner`, functions that are applied in a call `applied`, the binding of their
parameters `bound`, their statements `body`, and the statements of a block a mode that depends on
where the block stands. -/
structure Correspondence (σ τ : Type) where
  settings : Settings
  settings' : Settings
  Mode : Type
  inner : Mode
  applied : Mode
  bound : Mode
  body : Mode
  block : Mode → Mode
  /-- Where executions may begin, and where they succeed. -/
  valid : σ → τ → Prop
  /-- What becomes of two hosts if executions succeed. -/
  keeps : Mode → σ → τ → σ → τ → Prop
  /-- What becomes of two hosts if executions stop short. -/
  stops : Mode → σ → τ → Halt → σ → Halt → τ → Prop
  /-- What becomes of the first host if the first execution may stop short alone. -/
  quits : Mode → σ → Halt → σ → Prop
  value : σ → τ → Value → Value → Prop
  expr : Expr → Expr → Prop
  stmt : Mode → Stmt → Stmt → Prop
  paren : Token → Token → Prop
  /-- What is known of a function and the values it is applied to. -/
  fits : Value → List Value → Prop
  /-- What is known while a value is called. -/
  calls : Value → Token → List Value → σ → τ → Prop
  /-- What is known when there is room for one more call. -/
  roomy : σ → τ → Prop

namespace Correspondence

variable {σ τ : Type} (c : Correspondence σ τ) {α β : Type}

/-- Executions that began on the hosts `s` and `t` end alike. -/
def Ends (mode : c.Mode) (s : σ) (t : τ) (good : σ → τ → α → α → Prop) :
    EStateM.Result Halt σ α → EStateM.Result Halt τ α → Prop
  | .ok a s', .ok b t' => c.valid s' t' ∧ c.keeps mode s t s' t' ∧ good s' t' a b
  | .error halt s', .error halt' t' => c.stops mode s t halt s' halt' t'
  | _, _ => False

/-- Begun on the hosts `s` and `t`, the executions end alike, unless the first one quits. -/
def At (mode : c.Mode) (s : σ) (t : τ) (good : σ → τ → α → α → Prop) (p : EStateM Halt σ α)
    (q : EStateM Halt τ α) : Prop :=
  (∃ halt s', p s = .error halt s' ∧ c.quits mode s halt s') ∨ c.Ends mode s t good (p s) (q t)

def Relates (mode : c.Mode) (good : σ → τ → α → α → Prop) (p : EStateM Halt σ α)
    (q : EStateM Halt τ α) : Prop :=
  ∀ s t, c.valid s t → c.At mode s t good p q

abbrev values (s : σ) (t : τ) : List Value → List Value → Prop :=
  List.Forall₂ (c.value s t)

abbrev done : σ → τ → Unit → Unit → Prop :=
  fun _ _ _ _ ↦ True

/-- What corresponded before still does. -/
def Carries (s : σ) (t : τ) (s' : σ) (t' : τ) : Prop :=
  ∀ v v', c.value s t v v' → c.value s' t' v v'

variable [Host σ] [Host τ]

/-- Two contexts that hosts enter together and come back from together, from what takes place in the
mode `inner` to what takes place in `outer`. -/
structure Surrounds (inner outer : c.Mode) (context context' : Context) (s : σ) (t : τ)
    (good : σ → τ → α → α → Prop) : Prop where
  valid : c.valid (enter context s) (enter context' t)
  carries : c.Carries s t (enter context s) (enter context' t)
  quits : ∀ {halt s'}, c.quits inner (enter context s) halt s' → ∃ halt' s'',
    (leave context (current s) (.error halt s') : EStateM.Result Halt σ α) = .error halt' s'' ∧
      c.quits outer s halt' s''
  leave : ∀ {r r'}, c.Ends inner (enter context s) (enter context' t) good r r' →
    c.Ends outer s t good (leave context (current s) r) (leave context' (current t) r')

/-- Operations on values that correspond end alike. -/
def RelatesOn (mode : c.Mode) (good : σ → τ → α → α → Prop) (p q : Value → Eval α) : Prop :=
  ∀ s t v v', c.valid s t → c.value s t v v' →
    c.At mode s t good (perform (p v)) (perform (q v'))

inductive ExprStep : Expr → Expr → Prop
  | literal {a a' : Atom} (h : ∀ s t, c.valid s t → c.value s t (.atom a) (.atom a')) :
      ExprStep (.literal a) (.literal a')
  | var {name name' : Token}
      (h : c.Relates c.inner c.value (perform (Eval.lookup name)) (perform (Eval.lookup name'))) :
      ExprStep (.var name) (.var name')
  | assign {name name' : Token} {value value' : Expr}
      (h : c.RelatesOn c.inner done (Eval.assign name) (Eval.assign name'))
      (hvalue : c.expr value value') : ExprStep (.assign name value) (.assign name' value')
  | unary {operator operator' : Token} {operand operand' : Expr}
      (h : c.RelatesOn c.inner c.value (Eval.unary operator) (Eval.unary operator'))
      (hoperand : c.expr operand operand') :
      ExprStep (.unary operator operand) (.unary operator' operand')
  | binary {operator operator' : Token} {left left' right right' : Expr}
      (h : ∀ s t x x' y y', c.valid s t → c.value s t x x' → c.value s t y y' →
        c.At c.inner s t c.value (perform (Eval.binary operator x y))
          (perform (Eval.binary operator' x' y')))
      (hleft : c.expr left left') (hright : c.expr right right') :
      ExprStep (.binary operator left right) (.binary operator' left' right')
  | logical {operator operator' : Token} {left left' right right' : Expr}
      (hkind : operator'.kind = operator.kind)
      (hleft : c.expr left left') (hright : c.expr right right') :
      ExprStep (.logical operator left right) (.logical operator' left' right')
  | call {callee callee' : Expr} {paren paren' : Token} {arguments arguments' : List Expr}
      (hparen : c.paren paren paren') (hcallee : c.expr callee callee')
      (harguments : List.Forall₂ c.expr arguments arguments') :
      ExprStep (.call callee paren arguments) (.call callee' paren' arguments')
  | grouping {inner inner' : Expr} (hinner : c.expr inner inner') :
      ExprStep (.grouping inner) (.grouping inner')
  | void (h : ∀ s t, c.valid s t →
      c.stops c.inner s t (.faulted .voidExpr) s (.faulted .voidExpr) t) : ExprStep .void .void

inductive StmtStep (mode : c.Mode) : Stmt → Stmt → Prop
  | block {body body' : List Stmt} (h : List.Forall₂ (c.stmt (c.block mode)) body body') :
      StmtStep mode (.block body) (.block body')
  | empty : StmtStep mode .empty .empty
  | expression {value value' : Expr}
      (hecho : c.RelatesOn mode done (fun v ↦ Eval.print v.source) (fun v ↦ Eval.print v.source))
      (h : c.expr value value') :
      StmtStep mode (.expression value) (.expression value')
  | function {name name' : Token} {params params' : List Token} {body body' : List Stmt}
      (hmake : c.Relates mode c.value (perform (Eval.makeClosure name params body))
        (perform (Eval.makeClosure name' params' body')))
      (hdefine : c.RelatesOn mode done (Eval.define name.lexeme) (Eval.define name'.lexeme)) :
      StmtStep mode (.function name params body) (.function name' params' body')
  | branch {condition condition' : Expr} {yes yes' : Stmt} {no no' : Option Stmt}
      (hcondition : c.expr condition condition') (hyes : c.stmt mode yes yes')
      (hno : Option.Rel (c.stmt mode) no no') :
      StmtStep mode (.branch condition yes no) (.branch condition' yes' no')
  | print {value value' : Expr}
      (hprint : c.RelatesOn mode done (fun v ↦ Eval.print v.display)
        (fun v ↦ Eval.print v.display))
      (h : c.expr value value') :
      StmtStep mode (.print value) (.print value')
  | ret {keyword keyword' : Token} {value value' : Option Expr}
      (hreturn : ∀ s t v v', c.valid s t → c.value s t v v' →
        c.stops mode s t (.returned v) s (.returned v') t)
      (h : Option.Rel c.expr value value') : StmtStep mode (.ret keyword value) (.ret keyword' value')
  | declare {name name' : Token} {initial initial' : Option Expr}
      (hdefine : c.RelatesOn mode done (Eval.define name.lexeme) (Eval.define name'.lexeme))
      (h : Option.Rel c.expr initial initial') :
      StmtStep mode (.declare name initial) (.declare name' initial')
  | loop {condition condition' : Expr} {body body' : Stmt} (hcondition : c.expr condition condition')
      (hbody : c.stmt mode body body') : StmtStep mode (.loop condition body) (.loop condition' body')
  | void (h : ∀ s t, c.valid s t →
      c.stops mode s t (.faulted .voidStmt) s (.faulted .voidStmt) t) : StmtStep mode .void .void

inductive ValueStep : Value → Value → Prop
  | atom (a a' : Atom) : ValueStep (.atom a) (.atom a')
  | native (f : Native) : ValueStep (.native f) (.native f)
  | closure {f f' : Closure} (hparams : f'.params = f.params)
      (h : List.Forall₂ (c.stmt c.body) f.body f'.body) :
      ValueStep (.closure f) (.closure f')

/-- Everything of which executions are made keeps to the correspondence. -/
structure Congruence : Prop where
  levels : c.settings'.levels = c.settings.levels
  refl : ∀ {mode s t}, c.valid s t → c.keeps mode s t s t
  trans : ∀ {mode s t s' t' s'' t''}, c.keeps mode s t s' t' → c.keeps mode s' t' s'' t'' →
    c.keeps mode s t s'' t''
  stops_trans : ∀ {mode s t s' t' halt s'' halt' t''}, c.keeps mode s t s' t' →
    c.stops mode s' t' halt s'' halt' t'' → c.stops mode s t halt s'' halt' t''
  quits_trans : ∀ {mode s t s' t' halt s''}, c.keeps mode s t s' t' → c.quits mode s' halt s'' →
    c.quits mode s halt s''
  keeps_lift : ∀ {mode stmt stmt' s t s' t'}, c.stmt mode stmt stmt' →
    c.keeps c.inner s t s' t' → c.keeps mode s t s' t'
  stops_lift : ∀ {mode stmt stmt' s t halt s' halt' t'}, c.stmt mode stmt stmt' →
    c.stops c.inner s t halt s' halt' t' → c.stops mode s t halt s' halt' t'
  quits_lift : ∀ {mode stmt stmt' s halt s'}, c.stmt mode stmt stmt' →
    c.quits c.inner s halt s' → c.quits mode s halt s'
  carries : ∀ {mode s t s' t'}, c.keeps mode s t s' t' → c.Carries s t s' t'
  calls_keeps : ∀ {f paren vs s t s' t'}, c.calls f paren vs s t → c.keeps c.inner s t s' t' →
    c.calls f paren vs s' t'
  roomy_keeps : ∀ {s t s' t'}, c.roomy s t → c.keeps c.inner s t s' t' → c.roomy s' t'
  unfinished : ∀ {mode s t}, c.valid s t → c.stops mode s t .unfinished s .unfinished t
  exhausted : ∀ {mode s t}, c.valid s t → c.stops mode s t .exhausted s .exhausted t
  truthy : ∀ {s t v v'}, c.value s t v v' → v'.truthy = v.truthy
  callable? : ∀ {s t v v'}, c.value s t v v' → v'.callable? = v.callable?
  value_step : ∀ {s t v v'}, c.value s t v v' → c.ValueStep v v'
  expr_step : ∀ {e e'}, c.expr e e' → c.ExprStep e e'
  stmt_step : ∀ {mode s s'}, c.stmt mode s s' → c.StmtStep mode s s'
  during_expr : ∀ {e e' n k s t}, c.expr e e' → c.valid s t →
    c.Surrounds c.inner c.inner (.job ⟨.expr e, n, k⟩) (.job ⟨.expr e', n, k⟩) s t c.value
  during_stmt : ∀ {mode stmt stmt' n k s t}, c.stmt mode stmt stmt' → c.valid s t →
    c.Surrounds mode mode (.job ⟨.stmt stmt, n, k⟩) (.job ⟨.stmt stmt', n, k⟩) s t done
  during_call : ∀ {f f' paren paren' vs vs' n k s t}, c.valid s t → c.value s t f f' →
    c.paren paren paren' → c.values s t vs vs' →
    c.Surrounds c.inner c.inner (.job ⟨.call f paren vs, n, k⟩) (.job ⟨.call f' paren' vs', n, k⟩)
      s t c.value ∧
    c.calls f paren vs (enter (.job ⟨.call f paren vs, n, k⟩) s)
      (enter (.job ⟨.call f' paren' vs', n, k⟩) t)
  during_apply : ∀ {f f' vs vs' n k s t}, c.valid s t → c.value s t f f' → c.values s t vs vs' →
    c.Surrounds c.inner c.applied (.job ⟨.apply f vs, n, k⟩) (.job ⟨.apply f' vs', n, k⟩) s t
      c.value
  inFrame : ∀ {f name arity paren paren' vs s t}, c.valid s t → c.roomy s t →
    c.calls f paren vs s t → c.paren paren paren' → f.callable? = some (name, arity) →
    c.Surrounds c.applied c.inner (.call ⟨name, paren.line⟩) (.call ⟨name, paren'.line⟩) s t c.value
  inBody : ∀ {s t} {f f' : Closure}, c.valid s t → c.value s t (.closure f) (.closure f') →
    c.Surrounds c.bound c.inner (.scope f.scope) (.scope f'.scope) s t c.value
  inBlock : ∀ {mode stmt stmt' s t}, c.stmt mode stmt stmt' → c.valid s t →
    c.Surrounds (c.block mode) mode (.scope none) (.scope none) s t done
  notCallable : ∀ {paren paren'}, c.paren paren paren' →
    c.Relates c.inner c.value (perform (Eval.fail .notCallable paren))
      (perform (Eval.fail .notCallable paren'))
  checkArity : ∀ {s t f name arity vs vs' paren paren'}, c.valid s t → c.values s t vs vs' →
    c.paren paren paren' → f.callable? = some (name, arity) →
    c.At c.inner s t (fun _ _ _ _ ↦ c.fits f vs) (perform (Eval.checkArity arity vs paren))
      (perform (Eval.checkArity arity vs' paren'))
  checkRoom : ∀ {paren paren'}, c.paren paren paren' →
    c.Relates c.inner (fun s t _ _ ↦ c.roomy s t) (perform (Eval.checkRoom c.settings paren))
      (perform (Eval.checkRoom c.settings' paren'))
  traceCall : ∀ {s t vs vs'} name, c.valid s t → c.values s t vs vs' →
    c.At c.inner s t done (perform (Eval.traceCall c.settings name vs))
      (perform (Eval.traceCall c.settings' name vs'))
  bindParam : ∀ name, c.RelatesOn c.bound done (Eval.define name) (Eval.define name)
  keeps_body : ∀ {s t s' t'}, c.keeps c.body s t s' t' → c.keeps c.bound s t s' t'
  /-- Functions return alike, and a return goes no further. -/
  stops_body : ∀ {s t halt s' halt' t'}, c.valid s t → c.stops c.body s t halt s' halt' t' →
    (∃ v v', halt = .returned v ∧ halt' = .returned v' ∧ c.valid s' t' ∧
      c.keeps c.bound s t s' t' ∧ c.value s' t' v v') ∨
    (∀ v, halt ≠ .returned v) ∧ (∀ v, halt' ≠ .returned v) ∧
      c.stops c.bound s t halt s' halt' t'
  quits_body : ∀ {s halt s'}, c.quits c.body s halt s' →
    (∀ v, halt ≠ .returned v) ∧ c.quits c.bound s halt s'
  nil : ∀ {s t}, c.valid s t → c.value s t (.atom .nil) (.atom .nil)
  readClock : c.Relates c.inner c.value (perform (Eval.readClock c.settings))
    (perform (Eval.readClock c.settings'))
  surplusArguments : ∀ {s t v vs}, c.valid s t → c.fits (.native .clock) (v :: vs) →
    c.stops c.inner s t (.faulted .surplusArguments) s (.faulted .surplusArguments) t
  notFunction : ∀ {s t a vs}, c.valid s t → c.fits (.atom a) vs →
    c.stops c.inner s t (.faulted .notFunction) s (.faulted .notFunction) t
  checkText : ∀ {mode s s'} levels, c.stmt mode s s' →
    c.Relates mode done (Eval.checkText c.settings levels s) (Eval.checkText c.settings' levels s')
  traceStmt : ∀ {mode s s'}, c.stmt mode s s' →
    c.Relates mode done (perform (Eval.traceStmt c.settings s))
      (perform (Eval.traceStmt c.settings' s'))

/-! ## Putting executions together -/

section Composition

variable {c} {mode : c.Mode} {s : σ} {t : τ} {good : σ → τ → α → α → Prop}
  {good' : σ → τ → β → β → Prop} {p : EStateM Halt σ α} {q : EStateM Halt τ α}

omit [Host σ] [Host τ] in
theorem At.throw {halt halt' : Halt} (hstops : c.stops mode s t halt s halt' t) :
    c.At mode s t good (MonadExcept.throw halt) (MonadExcept.throw halt') :=
  .inr hstops

/-- What takes place in a context ends alike if it ends alike inside. -/
theorem Surrounds.inside_at {inner : c.Mode} {context context' : Context}
    (hcontext : c.Surrounds inner mode context context' s t good)
    (hbody : c.At inner (enter context s) (enter context' t) good p q) :
    c.At mode s t good (inside context p) (inside context' q) := by
  rcases hbody with ⟨halt, s', hp, hquits⟩ | hends
  · obtain ⟨halt', s'', hleave, hquits'⟩ := hcontext.quits hquits
    refine .inl ⟨halt', s'', ?_, hquits'⟩
    change Host.leave context (current s) (p (enter context s)) = _
    rw [hp, hleave]
  · exact .inr (hcontext.leave hends)

/-- What is executed in contexts that hosts enter and leave together ends alike. -/
theorem Surrounds.inside {inner : c.Mode} {context context' : Context}
    (hcontext : c.Surrounds inner mode context context' s t good)
    (hbody : ∀ s' t', c.valid s' t' → c.Carries s t s' t' → c.At inner s' t' good p q) :
    c.At mode s t good (inside context p) (inside context' q) :=
  hcontext.inside_at (hbody _ _ hcontext.valid hcontext.carries)

variable (h : c.Congruence)
include h

theorem Congruence.pure {a b : α} (hvalid : c.valid s t) (hgood : good s t a b) :
    c.At mode s t good (Pure.pure a) (Pure.pure b) :=
  .inr ⟨hvalid, h.refl hvalid, hgood⟩

/-- Executions are put together step by step. -/
theorem Congruence.bind {next : α → EStateM Halt σ β} {next' : α → EStateM Halt τ β}
    (hp : c.At mode s t good p q)
    (hnext : ∀ s' t' a b, c.valid s' t' → c.keeps mode s t s' t' → good s' t' a b →
      c.At mode s' t' good' (next a) (next' b)) :
    c.At mode s t good' (p >>= next) (q >>= next') := by
  -- The first execution may quit in either part, and in the second only where both went on to it.
  rcases hp with ⟨halt, s', hps, hquits⟩ | hp
  · exact .inl ⟨halt, s', bind_of_error hps next, hquits⟩
  cases hps : p s <;> cases hqt : q t <;> rw [hps, hqt] at hp
  · rename_i a s' b t'
    obtain ⟨hvalid, hkeeps, hgood⟩ := hp
    have hend := hnext s' t' a b hvalid hkeeps hgood
    unfold At at hend ⊢
    rw [bind_of_ok hps, bind_of_ok hqt]
    rcases hend with ⟨halt, s'', hs, hquits⟩ | hend
    · exact .inl ⟨halt, s'', hs, h.quits_trans hkeeps hquits⟩
    · right
      cases hs : next a s' <;> cases ht : next' b t' <;> rw [hs, ht] at hend
      · exact ⟨hend.1, h.trans hkeeps hend.2.1, hend.2.2⟩
      · exact hend
      · exact hend
      · exact h.stops_trans hkeeps hend
  · exact hp.elim
  · exact hp.elim
  · right
    rw [bind_of_error hps, bind_of_error hqt]
    exact hp

/-- What expressions do may be done wherever a statement may be executed. -/
theorem Congruence.lift {stmt stmt' : Stmt} (hstmt : c.stmt mode stmt stmt')
    (hp : c.At c.inner s t good p q) : c.At mode s t good p q := by
  rcases hp with ⟨halt, s', hps, hquits⟩ | hp
  · exact .inl ⟨halt, s', hps, h.quits_lift hstmt hquits⟩
  right
  cases hps : p s <;> cases hqt : q t <;> rw [hps, hqt] at hp
  · exact ⟨hp.1, h.keeps_lift hstmt hp.2.1, hp.2.2⟩
  · exact hp
  · exact hp
  · exact h.stops_lift hstmt hp

theorem Congruence.values_carry {s' : σ} {t' : τ} {vs vs' : List Value}
    (hkeeps : c.keeps mode s t s' t') (hvalues : c.values s t vs vs') : c.values s' t' vs vs' :=
  hvalues.imp (h.carries hkeeps)

end Composition

end Correspondence

/-! ## Returning, and exhausted levels -/

namespace Eval

variable {σ : Type} {body : EStateM Halt σ Unit} {s s' : σ}

theorem catchReturn_of_ok (h : body s = .ok () s') : catchReturn body s = .ok (.atom .nil) s' := by
  simp only [catchReturn, h]

theorem catchReturn_of_returned {value : Value} (h : body s = .error (.returned value) s') :
    catchReturn body s = .ok value s' := by
  simp only [catchReturn, h]

theorem catchReturn_of_error {halt : Halt} (h : body s = .error halt s')
    (hne : ∀ value, halt ≠ .returned value) : catchReturn body s = .error halt s' := by
  cases halt with
  | returned value => exact absurd rfl (hne value)
  | failed | faulted | exhausted | unfinished => simp only [catchReturn, h]

variable [Host σ]

/-- Evaluating an expression takes three levels. -/
theorem expr_exhausted (settings : Settings) (steps : Nat) {levels : Nat} (h : levels < 3)
    (e : Expr) : (expr settings (steps + 1) levels e : EStateM Halt σ Value) = throw .exhausted := by
  rcases levels with _ | _ | _ | levels
  iterate 3 simp only [expr]
  omega

/-- Executing a statement takes three levels. -/
theorem stmt_exhausted (settings : Settings) (steps : Nat) {levels : Nat} (h : levels < 3)
    (s : Stmt) : (stmt settings (steps + 1) levels s : EStateM Halt σ Unit) = throw .exhausted := by
  rcases levels with _ | _ | _ | levels
  iterate 3 simp only [stmt]
  omega

end Eval

/-! ## Whole executions -/

namespace Correspondence

variable {σ τ : Type} [Host σ] [Host τ] (c : Correspondence σ τ)

/-- With so many steps, executions of what corresponds end alike. -/
structure RelatesFor (steps : Nat) : Prop where
  expr : ∀ levels e e', c.expr e e' →
    c.Relates c.inner c.value (Eval.expr c.settings steps levels e)
      (Eval.expr c.settings' steps levels e')
  exprs : ∀ levels es es', List.Forall₂ c.expr es es' →
    c.Relates c.inner c.values (Eval.exprs c.settings steps levels es)
      (Eval.exprs c.settings' steps levels es')
  call : ∀ levels s t f f' paren paren' vs vs', c.valid s t → c.value s t f f' →
    c.paren paren paren' → c.values s t vs vs' →
    c.At c.inner s t c.value (Eval.call c.settings steps levels f paren vs)
      (Eval.call c.settings' steps levels f' paren' vs')
  apply : ∀ levels s t f f' vs vs', c.valid s t → c.value s t f f' → c.values s t vs vs' →
    c.fits f vs →
    c.At c.applied s t c.value (Eval.apply c.settings steps levels f vs)
      (Eval.apply c.settings' steps levels f' vs')
  stmt : ∀ levels mode s s', c.stmt mode s s' →
    c.Relates mode done (Eval.stmt c.settings steps levels s) (Eval.stmt c.settings' steps levels s')
  loop : ∀ levels mode e e' s s', c.expr e e' → c.stmt mode s s' →
    c.Relates mode done (Eval.loop c.settings steps levels e s)
      (Eval.loop c.settings' steps levels e' s')
  stmts : ∀ levels mode body body', List.Forall₂ (c.stmt mode) body body' →
    c.Relates mode done (Eval.stmts c.settings steps levels body)
      (Eval.stmts c.settings' steps levels body')

namespace Congruence

variable {c} (h : c.Congruence)
include h

/-- Parameters are bound alike. -/
theorem bindAll_relates (names : List String) {s : σ} {t : τ} {vs vs' : List Value}
    (hvalid : c.valid s t) (hvs : c.values s t vs vs') :
    c.At c.bound s t done (Eval.bindAll names vs) (Eval.bindAll names vs') := by
  induction names generalizing s t vs vs' with
  | nil => exact h.pure hvalid trivial
  | cons name names ih =>
    cases hvs with
    | nil => exact h.pure hvalid trivial
    | cons hv hvs =>
      exact h.bind (h.bindParam name s t _ _ hvalid hv) fun s' t' _ _ hvalid' hkeeps _ ↦
        ih hvalid' (h.values_carry hkeeps hvs)

/-- A return is caught on both sides or on none. -/
theorem catchReturn_relates {s : σ} {t : τ} {p : EStateM Halt σ Unit} {q : EStateM Halt τ Unit}
    (hstart : c.valid s t) (hbody : c.At c.body s t done p q) :
    c.At c.bound s t c.value (Eval.catchReturn p) (Eval.catchReturn q) := by
  rcases hbody with ⟨halt, s', hp, hquits⟩ | hbody
  · obtain ⟨hne, hquits'⟩ := h.quits_body hquits
    exact .inl ⟨halt, s', Eval.catchReturn_of_error hp hne, hquits'⟩
  right
  cases hp : p s <;> cases hq : q t <;> rw [hp, hq] at hbody
  · rw [Eval.catchReturn_of_ok hp, Eval.catchReturn_of_ok hq]
    exact ⟨hbody.1, h.keeps_body hbody.2.1, h.nil hbody.1⟩
  · exact hbody.elim
  · exact hbody.elim
  · rcases h.stops_body hstart hbody with ⟨v, v', rfl, rfl, hvalid, hkeeps, hv⟩ | ⟨hne, hne', hstops⟩
    · rw [Eval.catchReturn_of_returned hp, Eval.catchReturn_of_returned hq]
      exact ⟨hvalid, hkeeps, hv⟩
    · rw [Eval.catchReturn_of_error hp hne, Eval.catchReturn_of_error hq hne']
      exact hstops

/-- Without steps, nothing but giving up can come of anything. -/
theorem relatesFor_zero : c.RelatesFor 0 where
  expr levels e e' _ s t hvalid := by
    simp only [Eval.expr]
    exact .throw (h.unfinished hvalid)
  exprs levels es es' _ s t hvalid := by
    simp only [Eval.exprs]
    exact .throw (h.unfinished hvalid)
  call levels s t f f' paren paren' vs vs' hvalid _ _ _ := by
    simp only [Eval.call]
    exact .throw (h.unfinished hvalid)
  apply levels s t f f' vs vs' hvalid _ _ _ := by
    simp only [Eval.apply]
    exact .throw (h.unfinished hvalid)
  stmt levels mode s s' _ s t hvalid := by
    simp only [Eval.stmt]
    exact .throw (h.unfinished hvalid)
  loop levels mode e e' s s' _ _ s t hvalid := by
    simp only [Eval.loop]
    exact .throw (h.unfinished hvalid)
  stmts levels mode body body' _ s t hvalid := by
    simp only [Eval.stmts]
    exact .throw (h.unfinished hvalid)

variable {steps : Nat} (ih : c.RelatesFor steps)
include ih

/-- One more step for an expression: its parts are evaluated with the steps before. -/
theorem expr_succ (levels : Nat) {e e' : Expr} (he : c.expr e e') :
    c.Relates c.inner c.value (Eval.expr c.settings (steps + 1) levels e)
      (Eval.expr c.settings' (steps + 1) levels e') := by
  by_cases hlevels : levels < 3
  · intro s t hvalid
    rw [Eval.expr_exhausted _ _ hlevels, Eval.expr_exhausted _ _ hlevels]
    exact .throw (h.exhausted hvalid)
  obtain ⟨levels, rfl⟩ := Nat.exists_eq_add_of_le' (Nat.le_of_not_lt hlevels)
  unfold Eval.expr
  refine fun s₀ t₀ hvalid₀ ↦ (h.during_expr he hvalid₀).inside fun s t hvalid _ ↦ ?_
  cases h.expr_step he with
  | literal hatom => exact h.pure hvalid (hatom s t hvalid)
  | var hlookup => exact hlookup s t hvalid
  | assign hassign hvalue =>
    refine h.bind (ih.expr levels _ _ hvalue s t hvalid) fun s' t' v v' hvalid' _ hv ↦ ?_
    refine h.bind (hassign s' t' v v' hvalid' hv) fun s'' t'' _ _ hvalid'' hkeeps _ ↦ ?_
    exact h.pure hvalid'' (h.carries hkeeps v v' hv)
  | unary hunary hoperand =>
    refine h.bind (ih.expr levels _ _ hoperand s t hvalid) fun s' t' v v' hvalid' _ hv ↦ ?_
    exact hunary s' t' v v' hvalid' hv
  | binary hbinary hleft hright =>
    refine h.bind (ih.expr levels _ _ hleft s t hvalid) fun s' t' x x' hvalid' _ hx ↦ ?_
    refine h.bind (ih.expr levels _ _ hright s' t' hvalid') fun s'' t'' y y' hvalid'' hkeeps hy ↦ ?_
    exact hbinary s'' t'' x x' y y' hvalid'' (h.carries hkeeps x x' hx) hy
  | logical hkind hleft hright =>
    refine h.bind (ih.expr levels _ _ hleft s t hvalid) fun s' t' x x' hvalid' _ hx ↦ ?_
    rw [h.truthy hx, hkind]
    split
    · exact h.pure hvalid' hx
    · exact ih.expr levels _ _ hright s' t' hvalid'
  | call hparen hcallee harguments =>
    refine h.bind (ih.expr levels _ _ hcallee s t hvalid) fun s' t' f f' hvalid' _ hf ↦ ?_
    refine h.bind (ih.exprs levels _ _ harguments s' t' hvalid')
      fun s'' t'' vs vs' hvalid'' hkeeps hvs ↦ ?_
    exact ih.call levels s'' t'' f f' _ _ vs vs' hvalid'' (h.carries hkeeps f f' hf) hparen hvs
  | grouping hinner => exact ih.expr levels _ _ hinner s t hvalid
  | void hvoid => exact .throw (hvoid s t hvalid)

theorem exprs_succ (levels : Nat) {es es' : List Expr} (hes : List.Forall₂ c.expr es es') :
    c.Relates c.inner c.values (Eval.exprs c.settings (steps + 1) levels es)
      (Eval.exprs c.settings' (steps + 1) levels es') := by
  intro s t hvalid
  cases hes with
  | nil =>
    simp only [Eval.exprs]
    exact h.pure hvalid .nil
  | cons he hes =>
    simp only [Eval.exprs]
    refine h.bind (ih.expr levels _ _ he s t hvalid) fun s' t' v v' hvalid' _ hv ↦ ?_
    refine h.bind (ih.exprs levels _ _ hes s' t' hvalid') fun s'' t'' vs vs' hvalid'' hkeeps hvs ↦ ?_
    exact h.pure hvalid'' (.cons (h.carries hkeeps v v' hv) hvs)

/-- One more step for a call. -/
theorem call_succ (levels : Nat) {s : σ} {t : τ} {f f' : Value} {paren paren' : Token}
    {vs vs' : List Value} (hvalid : c.valid s t) (hf : c.value s t f f')
    (hparen : c.paren paren paren') (hvs : c.values s t vs vs') :
    c.At c.inner s t c.value (Eval.call c.settings (steps + 1) levels f paren vs)
      (Eval.call c.settings' (steps + 1) levels f' paren' vs') := by
  simp only [Eval.call]
  obtain ⟨hjob, hcalls⟩ := h.during_call hvalid hf hparen hvs
  refine hjob.inside_at ?_
  have hvalid' := hjob.valid
  have hcarries := hjob.carries
  rw [h.callable? hf]
  cases hcallable : f.callable? with
  | none => exact h.notCallable hparen _ _ hvalid'
  | some callee =>
    obtain ⟨name, arity⟩ := callee
    have hvs' := hvs.imp hcarries
    refine h.bind (h.checkArity hvalid' hvs' hparen hcallable)
      fun s₁ t₁ _ _ hvalid₁ hkeeps₁ hfits ↦ ?_
    refine h.bind (h.checkRoom hparen s₁ t₁ hvalid₁) fun s₂ t₂ _ _ hvalid₂ hkeeps₂ hroomy ↦ ?_
    have hvs₂ := h.values_carry hkeeps₂ (h.values_carry hkeeps₁ hvs')
    refine h.bind (h.traceCall name hvalid₂ hvs₂) fun s₃ t₃ _ _ hvalid₃ hkeeps₃ _ ↦ ?_
    -- The hosts have changed since the call was begun; what was known of it then is still known.
    have hkeeps := h.trans (h.trans hkeeps₁ hkeeps₂) hkeeps₃
    refine (h.inFrame hvalid₃ (h.roomy_keeps hroomy hkeeps₃) (h.calls_keeps hcalls hkeeps) hparen
      hcallable).inside fun s₄ t₄ hvalid₄ hcarries₄ ↦ ?_
    exact ih.apply levels s₄ t₄ f f' vs vs' hvalid₄
      (hcarries₄ f f' (h.carries hkeeps f f' (hcarries f f' hf)))
      ((h.values_carry hkeeps hvs').imp hcarries₄) hfits

/-- One more step for a function that is applied. -/
theorem apply_succ (levels : Nat) {s : σ} {t : τ} {f f' : Value} {vs vs' : List Value}
    (hvalid : c.valid s t) (hf : c.value s t f f') (hvs : c.values s t vs vs')
    (hfits : c.fits f vs) :
    c.At c.applied s t c.value (Eval.apply c.settings (steps + 1) levels f vs)
      (Eval.apply c.settings' (steps + 1) levels f' vs') := by
  unfold Eval.apply
  refine (h.during_apply hvalid hf hvs).inside fun s' t' hvalid' hcarries ↦ ?_
  have hf' := hcarries f f' hf
  have hvs' := hvs.imp hcarries
  cases h.value_step hf' with
  | atom a a' => exact .throw (h.notFunction hvalid' hfits)
  | native f =>
    cases f
    cases hvs' with
    | nil => exact h.readClock s' t' hvalid'
    | cons hv hvs' => exact .throw (h.surplusArguments hvalid' hfits)
  | closure hparams hbody =>
    refine (h.inBody hvalid' hf').inside fun s₁ t₁ hvalid₁ hcarries₁ ↦ ?_
    rw [hparams]
    exact h.bind (h.bindAll_relates _ hvalid₁ (hvs'.imp hcarries₁)) fun s₂ t₂ _ _ hvalid₂ _ _ ↦
      h.catchReturn_relates hvalid₂ (ih.stmts (levels - 3) c.body _ _ hbody s₂ t₂ hvalid₂)

/-- One more step for a statement. -/
theorem stmt_succ (levels : Nat) {mode : c.Mode} {stmt stmt' : Stmt}
    (hstmt : c.stmt mode stmt stmt') :
    c.Relates mode done (Eval.stmt c.settings (steps + 1) levels stmt)
      (Eval.stmt c.settings' (steps + 1) levels stmt') := by
  by_cases hlevels : levels < 3
  · intro s t hvalid
    rw [Eval.stmt_exhausted _ _ hlevels, Eval.stmt_exhausted _ _ hlevels]
    exact .throw (h.exhausted hvalid)
  obtain ⟨levels, rfl⟩ := Nat.exists_eq_add_of_le' (Nat.le_of_not_lt hlevels)
  unfold Eval.stmt
  refine fun s₀ t₀ hvalid₀ ↦ (h.during_stmt hstmt hvalid₀).inside fun s t hvalid _ ↦ ?_
  refine h.bind (h.checkText _ hstmt s t hvalid) fun s₁ t₁ _ _ hvalid₁ _ _ ↦ ?_
  refine h.bind (h.traceStmt hstmt s₁ t₁ hvalid₁) fun s t _ _ hvalid _ _ ↦ ?_
  cases h.stmt_step hstmt with
  | block hbody =>
    exact (h.inBlock hstmt hvalid).inside fun s' t' hvalid' _ ↦
      ih.stmts (levels - 1) _ _ _ hbody s' t' hvalid'
  | empty => exact h.pure hvalid trivial
  | expression _ hvalue =>
    exact h.bind (h.lift hstmt (ih.expr levels _ _ hvalue s t hvalid))
      fun s' t' _ _ hvalid' _ _ ↦ h.pure hvalid' trivial
  | function hmake hdefine =>
    exact h.bind (hmake s t hvalid) fun s' t' v v' hvalid' _ hv ↦ hdefine s' t' v v' hvalid' hv
  | branch hcondition hyes hno =>
    refine h.bind (h.lift hstmt (ih.expr levels _ _ hcondition s t hvalid))
      fun s' t' v v' hvalid' _ hv ↦ ?_
    rw [h.truthy hv]
    split
    · exact ih.stmt levels mode _ _ hyes s' t' hvalid'
    · cases hno with
      | some hno => exact ih.stmt levels mode _ _ hno s' t' hvalid'
      | none => exact h.pure hvalid' trivial
  | print hprint hvalue =>
    exact h.bind (h.lift hstmt (ih.expr levels _ _ hvalue s t hvalid))
      fun s' t' v v' hvalid' _ hv ↦ hprint s' t' v v' hvalid' hv
  | ret hreturn hvalue =>
    cases hvalue with
    | some hvalue =>
      exact h.bind (h.lift hstmt (ih.expr levels _ _ hvalue s t hvalid))
        fun s' t' v v' hvalid' _ hv ↦ .throw (hreturn s' t' v v' hvalid' hv)
    | none => exact .throw (hreturn s t _ _ hvalid (h.nil hvalid))
  | declare hdefine hinitial =>
    cases hinitial with
    | some hinitial =>
      exact h.bind (h.lift hstmt (ih.expr levels _ _ hinitial s t hvalid))
        fun s' t' v v' hvalid' _ hv ↦ hdefine s' t' v v' hvalid' hv
    | none => exact hdefine s t _ _ hvalid (h.nil hvalid)
  | loop hcondition hbody => exact ih.loop levels mode _ _ _ _ hcondition hbody s t hvalid
  | void hvoid => exact .throw (hvoid s t hvalid)

/-- One more step for a loop: one round, and then the loop with the steps before. -/
theorem loop_succ (levels : Nat) {mode : c.Mode} {e e' : Expr} {body body' : Stmt}
    (he : c.expr e e') (hbody : c.stmt mode body body') :
    c.Relates mode done (Eval.loop c.settings (steps + 1) levels e body)
      (Eval.loop c.settings' (steps + 1) levels e' body') := by
  intro s t hvalid
  simp only [Eval.loop]
  refine h.bind (h.lift hbody (ih.expr levels _ _ he s t hvalid)) fun s' t' v v' hvalid' _ hv ↦ ?_
  rw [h.truthy hv]
  split
  · refine h.bind (ih.stmt levels mode _ _ hbody s' t' hvalid') fun s'' t'' _ _ hvalid'' _ _ ↦ ?_
    exact ih.loop levels mode _ _ _ _ he hbody s'' t'' hvalid''
  · exact h.pure hvalid' trivial

theorem stmts_succ (levels : Nat) {mode : c.Mode} {body body' : List Stmt}
    (hbody : List.Forall₂ (c.stmt mode) body body') :
    c.Relates mode done (Eval.stmts c.settings (steps + 1) levels body)
      (Eval.stmts c.settings' (steps + 1) levels body') := by
  intro s t hvalid
  cases hbody with
  | nil =>
    simp only [Eval.stmts]
    exact h.pure hvalid trivial
  | cons hstmt hrest =>
    simp only [Eval.stmts]
    refine h.bind (ih.stmt levels mode _ _ hstmt s t hvalid) fun s' t' _ _ hvalid' _ _ ↦ ?_
    exact ih.stmts levels mode _ _ hrest s' t' hvalid'

omit ih in
/-- Executions of what corresponds end alike, by induction on the steps they are given. -/
theorem relatesFor (steps : Nat) : c.RelatesFor steps := by
  induction steps with
  | zero => exact h.relatesFor_zero
  | succ steps ih =>
    exact {
      expr := fun levels _ _ ↦ h.expr_succ ih levels
      exprs := fun levels _ _ ↦ h.exprs_succ ih levels
      call := fun levels _ _ _ _ _ _ _ _ ↦ h.call_succ ih levels
      apply := fun levels _ _ _ _ _ _ ↦ h.apply_succ ih levels
      stmt := fun levels _ _ _ ↦ h.stmt_succ ih levels
      loop := fun levels _ _ _ _ _ ↦ h.loop_succ ih levels
      stmts := fun levels _ _ _ ↦ h.stmts_succ ih levels }

omit ih in
/-- Programs that correspond end alike. -/
theorem program_relates {mode : c.Mode} (steps : Nat) (echo : Bool) {body body' : List Stmt}
    (hbody : List.Forall₂ (c.stmt mode) body body') :
    c.Relates mode done (Eval.program c.settings steps echo body)
      (Eval.program c.settings' steps echo body') := by
  induction hbody with
  | nil => exact fun s t hvalid ↦ h.pure hvalid trivial
  | @cons stmt stmt' rest rest' hstmt _ hrest =>
    intro s t hvalid
    have hplain : c.At mode s t done
        (do Eval.stmt c.settings steps c.settings.levels stmt
            Eval.program c.settings steps echo rest)
        (do Eval.stmt c.settings' steps c.settings'.levels stmt'
            Eval.program c.settings' steps echo rest') := by
      rw [h.levels]
      exact h.bind ((h.relatesFor steps).stmt _ mode _ _ hstmt s t hvalid)
        fun s' t' _ _ hvalid' _ _ ↦ hrest s' t' hvalid'
    cases echo with
    | false => exact hplain
    | true =>
      cases h.stmt_step hstmt with
      | expression hecho hvalue =>
        simp only [Eval.program, h.levels]
        refine h.bind (h.lift hstmt ((h.relatesFor steps).expr _ _ _ hvalue s t hvalid))
          fun s₁ t₁ v v' hvalid₁ _ hv ↦ ?_
        exact h.bind (hecho s₁ t₁ v v' hvalid₁ hv) fun s₂ t₂ _ _ hvalid₂ _ _ ↦
          hrest s₂ t₂ hvalid₂
      | _ => exact hplain

end Congruence

end Correspondence

end Lox
