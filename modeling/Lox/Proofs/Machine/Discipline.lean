import Lox.Proofs.Machine.Congruence

/-!
# What holds of every execution

A property of executions is the correspondence of each execution with itself.  It holds of whatever
is executed if it holds of the operations of which executions are made, and passes from what is
executed in a context to the context.
-/

namespace Lox

open Host

/-- What is required of executions.  The modes are those of a correspondence. -/
structure Discipline (σ : Type) where
  settings : Settings
  Mode : Type
  inner : Mode
  applied : Mode
  bound : Mode
  body : Mode
  block : Mode → Mode
  /-- Where executions may begin, and where they succeed. -/
  valid : σ → Prop
  /-- What becomes of a host if an execution succeeds. -/
  keeps : Mode → σ → σ → Prop
  /-- What becomes of a host if an execution stops short. -/
  stops : Mode → σ → Halt → σ → Prop
  value : σ → Value → Prop
  expr : Expr → Prop
  stmt : Mode → Stmt → Prop
  /-- What is known of a function and the values it is applied to. -/
  fits : Value → List Value → Prop
  /-- What is known while a value is called. -/
  calls : Value → Token → List Value → σ → Prop
  /-- What is known when there is room for one more call. -/
  roomy : σ → Prop

namespace Discipline

variable {σ : Type} (d : Discipline σ) {α : Type}

/-- An execution that began on the host `s` ends as required, with an answer in `good` if it
succeeds. -/
def Ends (mode : d.Mode) (s : σ) (good : σ → α → Prop) : EStateM.Result Halt σ α → Prop
  | .ok a s' => d.valid s' ∧ d.keeps mode s s' ∧ good s' a
  | .error halt s' => d.stops mode s halt s'

def At (mode : d.Mode) (s : σ) (good : σ → α → Prop) (p : EStateM Halt σ α) : Prop :=
  d.Ends mode s good (p s)

def Holds (mode : d.Mode) (good : σ → α → Prop) (p : EStateM Halt σ α) : Prop :=
  ∀ s, d.valid s → d.At mode s good p

section

variable {d} {mode : d.Mode} {s s' : σ} {good : σ → α → Prop} {p : EStateM Halt σ α}

theorem At.of_ok {a : α} (h : p s = .ok a s') (hvalid : d.valid s') (hkeeps : d.keeps mode s s')
    (hgood : good s' a) : d.At mode s good p := by
  unfold At
  rw [h]
  exact ⟨hvalid, hkeeps, hgood⟩

theorem At.of_error {halt : Halt} (h : p s = .error halt s') (hstops : d.stops mode s halt s') :
    d.At mode s good p := by
  unfold At
  rw [h]
  exact hstops

theorem At.ok {a : α} (h : d.At mode s good p) (hp : p s = .ok a s') :
    d.valid s' ∧ d.keeps mode s s' ∧ good s' a := by
  unfold At at h
  rwa [hp] at h

theorem At.error {halt : Halt} (h : d.At mode s good p) (hp : p s = .error halt s') :
    d.stops mode s halt s' := by
  unfold At at h
  rwa [hp] at h

end

abbrev values (s : σ) (vs : List Value) : Prop :=
  ∀ v ∈ vs, d.value s v

abbrev done : σ → Unit → Prop :=
  fun _ _ ↦ True

/-! ## Every execution beside itself -/

/-- Executions correspond to themselves if they are as required. -/
def twice : Correspondence σ σ where
  settings := d.settings
  settings' := d.settings
  Mode := d.Mode
  inner := d.inner
  applied := d.applied
  bound := d.bound
  body := d.body
  block := d.block
  valid s t := t = s ∧ d.valid s
  keeps mode s _ s' _ := d.keeps mode s s'
  stops mode s _ halt s' halt' t' := halt' = halt ∧ t' = s' ∧ d.stops mode s halt s'
  quits _ _ _ _ := False
  value s _ v v' := v' = v ∧ d.value s v
  expr e e' := e' = e ∧ d.expr e
  stmt mode s s' := s' = s ∧ d.stmt mode s
  paren p p' := p' = p
  fits := d.fits
  calls f paren vs s _ := d.calls f paren vs s
  roomy s _ := d.roomy s

section Twice

variable {d} {mode : d.Mode} {s t : σ} {good : σ → α → Prop} {good' : σ → σ → α → α → Prop}

/-- What is required of one execution is a correspondence of the execution with itself. -/
theorem Ends.twice {r : EStateM.Result Halt σ α} (h : d.Ends mode s good r)
    (hgood : ∀ s a, good s a → good' s s a a) : d.twice.Ends mode s t good' r r := by
  cases r with
  | ok a s' => exact ⟨⟨rfl, h.1⟩, h.2.1, hgood s' a h.2.2⟩
  | error halt s' => exact ⟨rfl, rfl, h⟩

/-- Conversely, executions that correspond in this way are the same, and as required. -/
theorem Ends.of_twice {r r' : EStateM.Result Halt σ α} (h : d.twice.Ends mode s t good' r r')
    (hgood : ∀ s a b, good' s s a b → b = a ∧ good s a) : r' = r ∧ d.Ends mode s good r := by
  cases r <;> cases r'
  · obtain ⟨⟨rfl, hvalid⟩, hkeeps, hgood'⟩ := h
    obtain ⟨rfl, hgood'⟩ := hgood _ _ _ hgood'
    exact ⟨rfl, hvalid, hkeeps, hgood'⟩
  · exact h.elim
  · exact h.elim
  · obtain ⟨rfl, rfl, hstops⟩ := h
    exact ⟨rfl, hstops⟩

theorem At.twice {p : EStateM Halt σ α} (h : d.At mode s good p)
    (hgood : ∀ s a, good s a → good' s s a a) : d.twice.At mode s s good' p p :=
  .inr (Ends.twice h hgood)

theorem At.of_twice {p : EStateM Halt σ α} (h : d.twice.At mode s s good' p p)
    (hgood : ∀ s a b, good' s s a b → b = a ∧ good s a) : d.At mode s good p := by
  rcases h with ⟨_, _, -, hquits⟩ | hends
  · exact hquits.elim
  · exact (Ends.of_twice hends hgood).2

theorem forall₂_twice {γ : Type} {P : γ → Prop} {xs ys : List γ} :
    List.Forall₂ (fun x y ↦ y = x ∧ P x) xs ys ↔ ys = xs ∧ ∀ x ∈ xs, P x := by
  constructor
  · intro h
    induction h with
    | nil => exact ⟨rfl, List.forall_mem_nil P⟩
    | cons hhead _ ih => exact ⟨by rw [hhead.1, ih.1], List.forall_mem_cons.mpr ⟨hhead.2, ih.2⟩⟩
  · rintro ⟨rfl, h⟩
    exact List.forall₂_same.mpr fun x hx ↦ ⟨rfl, h x hx⟩

theorem rel_twice {γ : Type} {P : γ → Prop} {x : Option γ} (h : ∀ y ∈ x, P y) :
    Option.Rel (fun x y ↦ y = x ∧ P x) x x := by
  cases x with
  | none => exact .none
  | some y => exact .some ⟨rfl, h y rfl⟩

/-- So it is wherever executions begin. -/
theorem Holds.twice {p : EStateM Halt σ α} (h : d.Holds mode good p)
    (hgood : ∀ s a, good s a → good' s s a a) : d.twice.Relates mode good' p p := by
  rintro s _ ⟨rfl, hs⟩
  exact (h _ hs).twice hgood

end Twice

/-! ## Requirements on what executions are made of -/

variable [Host σ]

/-- A context that a host enters and comes back from as required, from what takes place in the mode
`inner` to what takes place in `outer`. -/
structure Surrounds (inner outer : d.Mode) (context : Context) (s : σ) (good : σ → α → Prop) :
    Prop where
  valid : d.valid (enter context s)
  carries : ∀ v, d.value s v → d.value (enter context s) v
  leave : ∀ {r}, d.Ends inner (enter context s) good r →
    d.Ends outer s good (leave context (current s) r)

def HoldsOn (mode : d.Mode) (good : σ → α → Prop) (p : Value → Eval α) : Prop :=
  ∀ s v, d.valid s → d.value s v → d.At mode s good (perform (p v))

def ExprStep : Expr → Prop
  | .literal a => ∀ s, d.valid s → d.value s (.atom a)
  | .var name => d.Holds d.inner d.value (perform (Eval.lookup name))
  | .assign name value => d.HoldsOn d.inner done (Eval.assign name) ∧ d.expr value
  | .unary operator operand => d.HoldsOn d.inner d.value (Eval.unary operator) ∧ d.expr operand
  | .binary operator left right =>
    (∀ s x y, d.valid s → d.value s x → d.value s y →
      d.At d.inner s d.value (perform (Eval.binary operator x y))) ∧ d.expr left ∧ d.expr right
  | .logical _ left right => d.expr left ∧ d.expr right
  | .call callee _ arguments => d.expr callee ∧ ∀ e ∈ arguments, d.expr e
  | .grouping e => d.expr e
  | .void => ∀ s, d.valid s → d.stops d.inner s (.faulted .voidExpr) s

def StmtStep (mode : d.Mode) : Stmt → Prop
  | .block body => ∀ s ∈ body, d.stmt (d.block mode) s
  | .empty => True
  | .expression value => d.HoldsOn mode done (fun v ↦ Eval.print v.source) ∧ d.expr value
  | .function name params body =>
    d.Holds mode d.value (perform (Eval.makeClosure name params body)) ∧
      d.HoldsOn mode done (Eval.define name.lexeme)
  | .branch condition yes no => d.expr condition ∧ d.stmt mode yes ∧ ∀ s ∈ no, d.stmt mode s
  | .print value => d.HoldsOn mode done (fun v ↦ Eval.print v.display) ∧ d.expr value
  | .ret _ value =>
    (∀ s v, d.valid s → d.value s v → d.stops mode s (.returned v) s) ∧ ∀ e ∈ value, d.expr e
  | .declare name initial =>
    d.HoldsOn mode done (Eval.define name.lexeme) ∧ ∀ e ∈ initial, d.expr e
  | .loop condition body => d.expr condition ∧ d.stmt mode body
  | .void => ∀ s, d.valid s → d.stops mode s (.faulted .voidStmt) s

/-- Everything of which executions are made ends as required. -/
structure Upheld : Prop where
  refl : ∀ {mode s}, d.valid s → d.keeps mode s s
  trans : ∀ {mode s s' s''}, d.keeps mode s s' → d.keeps mode s' s'' → d.keeps mode s s''
  stops_trans : ∀ {mode s s' halt s''}, d.keeps mode s s' → d.stops mode s' halt s'' →
    d.stops mode s halt s''
  keeps_lift : ∀ {mode stmt s s'}, d.stmt mode stmt → d.keeps d.inner s s' → d.keeps mode s s'
  stops_lift : ∀ {mode stmt s halt s'}, d.stmt mode stmt → d.stops d.inner s halt s' →
    d.stops mode s halt s'
  carries : ∀ {mode s s' v}, d.keeps mode s s' → d.value s v → d.value s' v
  calls_keeps : ∀ {f paren vs s s'}, d.calls f paren vs s → d.keeps d.inner s s' →
    d.calls f paren vs s'
  roomy_keeps : ∀ {s s'}, d.roomy s → d.keeps d.inner s s' → d.roomy s'
  unfinished : ∀ {mode s}, d.valid s → d.stops mode s .unfinished s
  exhausted : ∀ {mode s}, d.valid s → d.stops mode s .exhausted s
  closure : ∀ {s} {f : Closure}, d.value s (.closure f) → ∀ stmt ∈ f.body, d.stmt d.body stmt
  expr_step : ∀ {e}, d.expr e → d.ExprStep e
  stmt_step : ∀ {mode s}, d.stmt mode s → d.StmtStep mode s
  during_expr : ∀ {e n k s}, d.expr e → d.valid s →
    d.Surrounds d.inner d.inner (.job ⟨.expr e, n, k⟩) s d.value
  during_stmt : ∀ {mode stmt n k s}, d.stmt mode stmt → d.valid s →
    d.Surrounds mode mode (.job ⟨.stmt stmt, n, k⟩) s done
  during_call : ∀ {f paren vs n k s}, d.valid s → d.value s f → d.values s vs →
    d.Surrounds d.inner d.inner (.job ⟨.call f paren vs, n, k⟩) s d.value ∧
    d.calls f paren vs (enter (.job ⟨.call f paren vs, n, k⟩) s)
  during_apply : ∀ {f vs n k s}, d.valid s → d.value s f → d.values s vs →
    d.Surrounds d.inner d.applied (.job ⟨.apply f vs, n, k⟩) s d.value
  inFrame : ∀ {f name arity paren vs s}, d.valid s → d.roomy s → d.calls f paren vs s →
    f.callable? = some (name, arity) →
    d.Surrounds d.applied d.inner (.call ⟨name, paren.line⟩) s d.value
  inBody : ∀ {s} {f : Closure}, d.valid s → d.value s (.closure f) →
    d.Surrounds d.bound d.inner (.scope f.scope) s d.value
  inBlock : ∀ {mode stmt s}, d.stmt mode stmt → d.valid s →
    d.Surrounds (d.block mode) mode (.scope none) s done
  notCallable : ∀ {paren}, d.Holds d.inner d.value (perform (Eval.fail .notCallable paren))
  checkArity : ∀ {s f name arity vs paren}, d.valid s → d.values s vs →
    f.callable? = some (name, arity) →
    d.At d.inner s (fun _ _ ↦ d.fits f vs) (perform (Eval.checkArity arity vs paren))
  checkRoom : ∀ {paren},
    d.Holds d.inner (fun s _ ↦ d.roomy s) (perform (Eval.checkRoom d.settings paren))
  traceCall : ∀ {s vs} name, d.valid s → d.values s vs →
    d.At d.inner s done (perform (Eval.traceCall d.settings name vs))
  bindParam : ∀ name, d.HoldsOn d.bound done (Eval.define name)
  keeps_body : ∀ {s s'}, d.keeps d.body s s' → d.keeps d.bound s s'
  /-- A return goes no further than the function. -/
  stops_body : ∀ {s halt s'}, d.stops d.body s halt s' → (∀ v, halt ≠ .returned v) →
    d.stops d.bound s halt s'
  returned : ∀ {s v s'}, d.valid s → d.stops d.body s (.returned v) s' →
    d.valid s' ∧ d.keeps d.bound s s' ∧ d.value s' v
  nil : ∀ {s}, d.valid s → d.value s (.atom .nil)
  readClock : d.Holds d.inner d.value (perform (Eval.readClock d.settings))
  surplusArguments : ∀ {s v vs}, d.valid s → d.fits (.native .clock) (v :: vs) →
    d.stops d.inner s (.faulted .surplusArguments) s
  notFunction : ∀ {s a vs}, d.valid s → d.fits (.atom a) vs →
    d.stops d.inner s (.faulted .notFunction) s
  traceStmt : ∀ {mode s}, d.stmt mode s →
    d.Holds mode done (perform (Eval.traceStmt d.settings s))

/-! ## Passing to correspondences -/

variable {d} {mode : d.Mode} {s : σ} {good : σ → α → Prop} {good' : σ → σ → α → α → Prop}

theorem Surrounds.twice {inner : d.Mode} {context : Context}
    (h : d.Surrounds inner mode context s good)
    (hgood : ∀ s a b, good' s s a b ↔ b = a ∧ good s a) :
    d.twice.Surrounds inner mode context context s s good' where
  valid := ⟨rfl, h.valid⟩
  carries _ _ hv := ⟨hv.1, h.carries _ hv.2⟩
  quits hquits := hquits.elim
  leave hr := by
    obtain ⟨rfl, hend⟩ := Ends.of_twice hr fun s a b ↦ (hgood s a b).mp
    exact Ends.twice (h.leave hend) fun s a ha ↦ (hgood s a a).mpr ⟨rfl, ha⟩

theorem HoldsOn.twice {p : Value → Eval α} (h : d.HoldsOn mode good p)
    (hgood : ∀ s a, good s a → good' s s a a) : d.twice.RelatesOn mode good' p p := by
  rintro s _ v _ ⟨rfl, hs⟩ ⟨rfl, hv⟩
  exact (h _ _ hs hv).twice hgood

theorem ExprStep.twice {e : Expr} (h : d.ExprStep e) : d.twice.ExprStep e e := by
  cases e with
  | literal a =>
    refine .literal ?_
    rintro s _ ⟨rfl, hs⟩
    exact ⟨rfl, h _ hs⟩
  | var name => exact .var (Holds.twice h fun _ _ hv ↦ ⟨rfl, hv⟩)
  | assign name value => exact .assign (h.1.twice fun _ _ hv ↦ hv) ⟨rfl, h.2⟩
  | unary operator operand => exact .unary (h.1.twice fun _ _ hv ↦ ⟨rfl, hv⟩) ⟨rfl, h.2⟩
  | binary operator left right =>
    refine .binary ?_ ⟨rfl, h.2.1⟩ ⟨rfl, h.2.2⟩
    rintro s _ x _ y _ ⟨rfl, hs⟩ ⟨rfl, hx⟩ ⟨rfl, hy⟩
    exact (h.1 _ _ _ hs hx hy).twice fun _ _ hv ↦ ⟨rfl, hv⟩
  | logical operator left right => exact .logical rfl ⟨rfl, h.1⟩ ⟨rfl, h.2⟩
  | call callee paren arguments =>
    exact .call rfl ⟨rfl, h.1⟩ (forall₂_twice.mpr ⟨rfl, h.2⟩)
  | grouping e => exact .grouping ⟨rfl, h⟩
  | void =>
    refine .void ?_
    rintro s _ ⟨rfl, hs⟩
    exact ⟨rfl, rfl, h _ hs⟩

theorem StmtStep.twice {mode : d.Mode} {s : Stmt} (h : d.StmtStep mode s) :
    d.twice.StmtStep mode s s := by
  cases s with
  | block body => exact .block (forall₂_twice.mpr ⟨rfl, h⟩)
  | empty => exact .empty
  | expression value => exact .expression (h.1.twice fun _ _ hv ↦ hv) ⟨rfl, h.2⟩
  | function name params body =>
    exact .function (h.1.twice fun _ _ hv ↦ ⟨rfl, hv⟩) (h.2.twice fun _ _ hv ↦ hv)
  | branch condition yes no => exact .branch ⟨rfl, h.1⟩ ⟨rfl, h.2.1⟩ (rel_twice h.2.2)
  | print value => exact .print (h.1.twice fun _ _ hv ↦ hv) ⟨rfl, h.2⟩
  | ret keyword value =>
    refine .ret ?_ (rel_twice h.2)
    rintro s _ v _ ⟨rfl, hs⟩ ⟨rfl, hv⟩
    exact ⟨rfl, rfl, h.1 _ _ hs hv⟩
  | declare name initial => exact .declare (h.1.twice fun _ _ hv ↦ hv) (rel_twice h.2)
  | loop condition body => exact .loop ⟨rfl, h.1⟩ ⟨rfl, h.2⟩
  | void =>
    refine .void ?_
    rintro s _ ⟨rfl, hs⟩
    exact ⟨rfl, rfl, h _ hs⟩

/-- Without levels enough for a text, levels are exhausted. -/
theorem Upheld.checkText_holds (h : d.Upheld) (mode : d.Mode) (levels : Nat) (stmt : Stmt) :
    d.Holds mode done (Eval.checkText d.settings levels stmt) := by
  intro s hs
  unfold Eval.checkText
  split
  · exact h.exhausted hs
  · exact ⟨hs, h.refl hs, trivial⟩

/-- What is upheld by the parts of executions is a correspondence of executions with themselves. -/
theorem Upheld.congruence (h : d.Upheld) : d.twice.Congruence where
  levels := rfl
  refl hs := h.refl hs.2
  trans := h.trans
  stops_trans hkeeps hstops := ⟨hstops.1, hstops.2.1, h.stops_trans hkeeps hstops.2.2⟩
  quits_trans _ hquits := hquits
  keeps_lift hstmt := h.keeps_lift hstmt.2
  stops_lift hstmt hstops := ⟨hstops.1, hstops.2.1, h.stops_lift hstmt.2 hstops.2.2⟩
  quits_lift _ hquits := hquits
  carries hkeeps _ _ hv := ⟨hv.1, h.carries hkeeps hv.2⟩
  calls_keeps := h.calls_keeps
  roomy_keeps := h.roomy_keeps
  unfinished hs := ⟨rfl, hs.1, h.unfinished hs.2⟩
  exhausted hs := ⟨rfl, hs.1, h.exhausted hs.2⟩
  truthy hv := congrArg Value.truthy hv.1
  callable? hv := congrArg Value.callable? hv.1
  value_step := by
    rintro s t _ v ⟨rfl, hv⟩
    cases v with
    | atom a => exact .atom a a
    | native f => exact .native f
    | closure f => exact .closure rfl (forall₂_twice.mpr ⟨rfl, h.closure hv⟩)
  expr_step := by
    rintro e _ ⟨rfl, he⟩
    exact (h.expr_step he).twice
  stmt_step := by
    rintro mode s _ ⟨rfl, hs⟩
    exact (h.stmt_step hs).twice
  during_expr := by
    rintro e _ n k s _ ⟨rfl, he⟩ ⟨rfl, hs⟩
    exact (h.during_expr he hs).twice fun _ _ _ ↦ .rfl
  during_stmt := by
    rintro mode stmt _ n k s _ ⟨rfl, hstmt⟩ ⟨rfl, hs⟩
    exact (h.during_stmt hstmt hs).twice fun _ _ _ ↦ ⟨fun _ ↦ ⟨rfl, trivial⟩, fun _ ↦ trivial⟩
  during_call := by
    rintro _ f _ paren vs vs' n k _ s ⟨rfl, hs⟩ ⟨rfl, hf⟩ rfl hvs
    obtain ⟨rfl, hvs⟩ := forall₂_twice.mp hvs
    obtain ⟨hjob, hcalls⟩ := h.during_call hs hf hvs
    exact ⟨hjob.twice fun _ _ _ ↦ .rfl, hcalls⟩
  during_apply := by
    rintro f _ vs vs' n k s _ ⟨rfl, hs⟩ ⟨rfl, hf⟩ hvs
    obtain ⟨rfl, hvs⟩ := forall₂_twice.mp hvs
    exact (h.during_apply hs hf hvs).twice fun _ _ _ ↦ .rfl
  inFrame := by
    rintro f name arity paren _ vs s _ ⟨rfl, hs⟩ hroomy hcalls rfl hcallable
    exact (h.inFrame hs hroomy hcalls hcallable).twice fun _ _ _ ↦ .rfl
  inBody := by
    rintro s _ f f' ⟨rfl, hs⟩ ⟨hf', hf⟩
    cases hf'
    exact (h.inBody hs hf).twice fun _ _ _ ↦ .rfl
  inBlock := by
    rintro mode stmt _ s _ ⟨rfl, hstmt⟩ ⟨rfl, hs⟩
    exact (h.inBlock hstmt hs).twice fun _ _ _ ↦ ⟨fun _ ↦ ⟨rfl, trivial⟩, fun _ ↦ trivial⟩
  notCallable := by
    rintro paren _ rfl
    exact h.notCallable.twice fun _ _ hv ↦ ⟨rfl, hv⟩
  checkArity := by
    rintro s _ f name arity vs vs' paren _ ⟨rfl, hs⟩ hvs rfl hcallable
    obtain ⟨rfl, hvs⟩ := forall₂_twice.mp hvs
    exact (h.checkArity hs hvs hcallable).twice fun _ _ hfits ↦ hfits
  checkRoom := by
    rintro paren _ rfl
    exact h.checkRoom.twice fun _ _ hroomy ↦ hroomy
  traceCall := by
    rintro s _ vs vs' name ⟨rfl, hs⟩ hvs
    obtain ⟨rfl, hvs⟩ := forall₂_twice.mp hvs
    exact (h.traceCall name hs hvs).twice fun _ _ hdone ↦ hdone
  bindParam name := (h.bindParam name).twice fun _ _ hdone ↦ hdone
  keeps_body := h.keeps_body
  stops_body := by
    rintro s _ _ _ halt s' ⟨rfl, hstart⟩ ⟨rfl, rfl, hstops⟩
    by_cases hreturned : ∃ v, halt = .returned v
    · obtain ⟨v, rfl⟩ := hreturned
      obtain ⟨hvalid, hkeeps, hv⟩ := h.returned hstart hstops
      exact .inl ⟨v, v, rfl, rfl, ⟨rfl, hvalid⟩, hkeeps, rfl, hv⟩
    · have hne := not_exists.mp hreturned
      exact .inr ⟨hne, hne, rfl, rfl, h.stops_body hstops hne⟩
  quits_body hquits := hquits.elim
  nil hs := ⟨rfl, h.nil hs.2⟩
  readClock := h.readClock.twice fun _ _ hv ↦ ⟨rfl, hv⟩
  surplusArguments hs hfits := ⟨rfl, hs.1, h.surplusArguments hs.2 hfits⟩
  notFunction hs hfits := ⟨rfl, hs.1, h.notFunction hs.2 hfits⟩
  checkText := by
    rintro mode s _ levels ⟨rfl, -⟩
    exact (h.checkText_holds mode levels _).twice fun _ _ hdone ↦ hdone
  traceStmt := by
    rintro mode s _ ⟨rfl, hs⟩
    exact (h.traceStmt hs).twice fun _ _ hdone ↦ hdone

/-! ## Whole executions -/

variable (d)

/-- With so many steps, whatever is executed ends as required. -/
structure HoldsFor (steps : Nat) : Prop where
  expr : ∀ levels e, d.expr e → d.Holds d.inner d.value (Eval.expr d.settings steps levels e)
  exprs : ∀ levels es, (∀ e ∈ es, d.expr e) →
    d.Holds d.inner d.values (Eval.exprs d.settings steps levels es)
  call : ∀ levels s f paren vs, d.valid s → d.value s f → d.values s vs →
    d.At d.inner s d.value (Eval.call d.settings steps levels f paren vs)
  apply : ∀ levels s f vs, d.valid s → d.value s f → d.values s vs → d.fits f vs →
    d.At d.applied s d.value (Eval.apply d.settings steps levels f vs)
  stmt : ∀ levels mode s, d.stmt mode s →
    d.Holds mode done (Eval.stmt d.settings steps levels s)
  loop : ∀ levels mode e s, d.expr e → d.stmt mode s →
    d.Holds mode done (Eval.loop d.settings steps levels e s)
  stmts : ∀ levels mode body, (∀ s ∈ body, d.stmt mode s) →
    d.Holds mode done (Eval.stmts d.settings steps levels body)

variable {d}

/-- By the theorem on correspondences, whatever is executed ends as required. -/
theorem Upheld.holdsFor (h : d.Upheld) (steps : Nat) : d.HoldsFor steps := by
  have hrelates := h.congruence.relatesFor steps
  have hdone : ∀ (_ : σ) (a b : Unit), True → b = a ∧ True := fun _ _ _ _ ↦ ⟨rfl, trivial⟩
  exact {
    expr := fun levels e he s hs ↦
      At.of_twice (hrelates.expr levels e e ⟨rfl, he⟩ s s ⟨rfl, hs⟩) fun _ _ _ hv ↦ hv
    exprs := fun levels es hes s hs ↦
      At.of_twice (hrelates.exprs levels es es (forall₂_twice.mpr ⟨rfl, hes⟩) s s ⟨rfl, hs⟩)
        fun _ _ _ hvs ↦ forall₂_twice.mp hvs
    call := fun levels s f paren vs hs hf hvs ↦
      At.of_twice (hrelates.call levels s s f f paren paren vs vs ⟨rfl, hs⟩ ⟨rfl, hf⟩ rfl
        (forall₂_twice.mpr ⟨rfl, hvs⟩)) fun _ _ _ hv ↦ hv
    apply := fun levels s f vs hs hf hvs hfits ↦
      At.of_twice (hrelates.apply levels s s f f vs vs ⟨rfl, hs⟩ ⟨rfl, hf⟩
        (forall₂_twice.mpr ⟨rfl, hvs⟩) hfits) fun _ _ _ hv ↦ hv
    stmt := fun levels mode stmt hstmt s hs ↦
      At.of_twice (hrelates.stmt levels mode stmt stmt ⟨rfl, hstmt⟩ s s ⟨rfl, hs⟩) hdone
    loop := fun levels mode e stmt he hstmt s hs ↦
      At.of_twice (hrelates.loop levels mode e e stmt stmt ⟨rfl, he⟩ ⟨rfl, hstmt⟩ s s ⟨rfl, hs⟩)
        hdone
    stmts := fun levels mode body hbody s hs ↦
      At.of_twice (hrelates.stmts levels mode body body (forall₂_twice.mpr ⟨rfl, hbody⟩) s s
        ⟨rfl, hs⟩) hdone }

/-- Whole programs end as required. -/
theorem Upheld.program_holds (h : d.Upheld) (steps : Nat) (echo : Bool) {body : List Stmt}
    (hbody : ∀ s ∈ body, d.stmt mode s) :
    d.Holds mode done (Eval.program d.settings steps echo body) := by
  intro s hs
  exact At.of_twice (h.congruence.program_relates steps echo (forall₂_twice.mpr ⟨rfl, hbody⟩) s s
    ⟨rfl, hs⟩) fun _ _ _ _ ↦ ⟨rfl, trivial⟩

end Discipline

end Lox
