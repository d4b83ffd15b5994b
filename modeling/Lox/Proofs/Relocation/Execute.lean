import Lox.Proofs.Machine.Congruence
import Lox.Proofs.Relocation.Machine

/-!
# Execution does not look at places

Executing a relocated tree on the relocated machine ends as executing the tree on the machine does,
with everything relocated.  No steps are reported meanwhile.
-/

namespace Lox.Eval

open Stateful

variable (r : Relocation) (settings : Settings)

/-- What `p` does to a machine, `q` does to the relocated machine. -/
abbrev Follows {α β : Type} (value : α → β) (p : Eval α) (q : Eval β) : Prop :=
  Mirrors (Machine.relocate r) (Halt.relocate r) value p q

def relocating : Correspondence Machine Machine where
  settings := settings.untraced
  settings' := settings.untraced
  Mode := Unit
  inner := ()
  applied := ()
  bound := ()
  body := ()
  block := id
  valid m m' := m' = m.relocate r
  keeps _ _ _ _ _ := True
  stops _ _ _ halt m halt' m' := halt' = halt.relocate r ∧ m' = m.relocate r
  quits _ _ _ _ := False
  value _ _ v v' := v' = v.relocate r
  expr e e' := e' = e.relocate r
  stmt _ s s' := s' = s.relocate r
  paren token token' := token' = token.relocate r
  fits _ _ := True
  calls _ _ _ _ _ := True
  roomy _ _ := True

variable {r settings} {m : Machine}

/-- Executions end alike if the one ends as the other does, with everything relocated. -/
theorem relates_of_follows {α : Type} {mode : Unit} {value : α → α}
    {good : Machine → Machine → α → α → Prop} (hgood : ∀ m m' a, good m m' a (value a))
    {p q : Eval α} (h : Follows r value p q) :
    (relocating r settings).Relates mode good (Host.perform p) (Host.perform q) := by
  rintro m _ rfl
  refine .inr ?_
  change (relocating r settings).Ends mode m (m.relocate r) good (p m) (q (m.relocate r))
  rw [h m]
  cases p m with
  | ok a after => exact ⟨rfl, trivial, hgood _ _ a⟩
  | error halt after => exact ⟨rfl, rfl⟩

theorem value_relates {mode : Unit} {p q : Eval Value} (h : Follows r (Value.relocate r) p q) :
    (relocating r settings).Relates mode (relocating r settings).value (Host.perform p)
      (Host.perform q) := by
  have hgood (m m' : Machine) (v : Value) :
    (relocating r settings).value m m' v (v.relocate r) := rfl
  exact relates_of_follows hgood h

theorem done_relates {mode : Unit} {p q : Eval Unit} (h : Follows r id p q) :
    (relocating r settings).Relates mode Correspondence.done (Host.perform p) (Host.perform q) :=
  relates_of_follows (fun _ _ _ ↦ trivial) h

/-- The other way round, the end of the one execution tells the end of the other. -/
theorem follows_of_relates {p q : Eval Unit}
    (h : (relocating r settings).Relates () Correspondence.done p q) : Follows r id p q := by
  intro m
  rcases h m _ rfl with ⟨_, _, -, hquits⟩ | hend
  · exact hquits.elim
  cases hp : p m <;> cases hq : q (m.relocate r) <;> rw [hp, hq] at hend
  · rw [hend.1]
    rfl
  · exact hend.elim
  · exact hend.elim
  · rw [hend.1, hend.2]
    rfl

/-! ## Operations -/

theorem fail_follows {α β : Type} {value : α → β} (cause : RuntimeCause) (token : Token) :
    Follows r value (fail cause token) (fail cause (token.relocate r)) :=
  .throw rfl

/-- A name is looked up alike, wherever it stands. -/
theorem lookup_follows (name : Token) :
    Follows r (Value.relocate r) (lookup name) (lookup (name.relocate r)) := by
  intro m
  unfold lookup
  have hget : (m.relocate r).scopes.get? (m.relocate r).current (name.relocate r).lexeme =
      (m.scopes.get? m.current name.lexeme).map (Value.relocate r) :=
    m.scopes.get?_relocate r m.current name.lexeme
  rw [hget]
  cases m.scopes.get? m.current name.lexeme with
  | none => rfl
  | some value => rfl

/-- An assignment reaches the same scope, wherever it stands. -/
theorem assign_follows (name : Token) (value : Value) :
    Follows r id (assign name value) (assign (name.relocate r) (value.relocate r)) := by
  intro m
  unfold assign
  have hresolve : (m.relocate r).scopes.resolve? (m.relocate r).current (name.relocate r).lexeme =
      (m.scopes.resolve? m.current name.lexeme).map fun found ↦ (found.1, found.2.relocate r) :=
    m.scopes.search_relocate r name.lexeme (m.current + 1) m.current
  rw [hresolve]
  cases m.scopes.resolve? m.current name.lexeme with
  | none => rfl
  | some found =>
    change EStateM.Result.ok () { m.relocate r with
      scopes := (m.scopes.relocate r).define found.1 name.lexeme (value.relocate r) } = _
    rw [Scopes.define_relocate]
    rfl

theorem define_follows (name : String) (value : Value) :
    Follows r id (define name value) (define name (value.relocate r)) := by
  apply Mirrors.modifyGet
  intro m
  change ((), { m.relocate r with
    scopes := (m.scopes.relocate r).define m.current name (value.relocate r) }) = _
  rw [Scopes.define_relocate]
  rfl

/-- Operators give the same, and find the same faults, wherever they stand. -/
theorem binary_follows (operator : Token) (x y : Value) :
    Follows r (Value.relocate r) (binary operator x y)
      (binary (operator.relocate r) (x.relocate r) (y.relocate r)) := by
  rcases binary_cases (operator.relocate_kind r) (x.relocate_atom? r) (y.relocate_atom? r)
    (x.relocate_equal r y) with ⟨a, heq, heq', -⟩ | ⟨cause, heq, heq'⟩ | ⟨-, heq, heq'⟩
  · rw [heq, heq']
    exact .pure rfl
  · rw [heq, heq']
    exact fail_follows cause operator
  · rw [heq, heq']
    exact .throw rfl

theorem unary_follows (operator : Token) (x : Value) :
    Follows r (Value.relocate r) (unary operator x)
      (unary (operator.relocate r) (x.relocate r)) := by
  rcases unary_cases (operator.relocate_kind r) (x.relocate_atom? r) with
    ⟨a, heq, heq', -⟩ | ⟨cause, heq, heq'⟩ | ⟨-, heq, heq'⟩
  · rw [heq, heq']
    exact .pure rfl
  · rw [heq, heq']
    exact fail_follows cause operator
  · rw [heq, heq']
    exact .throw rfl

/-- A function made elsewhere has the same scope, and its body stands elsewhere. -/
theorem makeClosure_follows (name : Token) (params : List Token) (body : List Stmt) :
    Follows r (Value.relocate r) (makeClosure name params body)
      (makeClosure (name.relocate r) (params.map (Token.relocate r))
        (body.map (Stmt.relocate r))) := by
  apply Mirrors.modifyGet
  intro m
  have hparams : (params.map (Token.relocate r)).map Token.lexeme = params.map Token.lexeme := by
    rw [List.map_map]
    rfl
  rw [hparams]
  rfl

theorem checkRoom_follows (settings : Settings) (paren : Token) :
    Follows r id (checkRoom settings paren) (checkRoom settings (paren.relocate r)) := by
  intro m
  have hsize : (m.relocate r).frames.size = m.frames.size := Array.size_map
  unfold checkRoom
  rw [hsize]
  split
  · rfl
  · rfl

theorem checkArity_follows (arity : Nat) (values values' : List Value)
    (hlength : values'.length = values.length) (paren : Token) :
    Follows r id (checkArity arity values paren)
      (checkArity arity values' (paren.relocate r)) := by
  unfold checkArity
  rw [hlength]
  exact .ite (.pure rfl) (fail_follows _ paren)

theorem traceCall_follows (name : String) (values values' : List Value) :
    Follows r id (traceCall settings.untraced name values)
      (traceCall settings.untraced name values') := by
  intro m
  obtain ⟨line, hline⟩ := traceCall_eq name values
  obtain ⟨line', hline'⟩ := traceCall_eq name values'
  rw [hline, hline']
  rfl

theorem traceStmt_follows (s s' : Stmt) :
    Follows r id (traceStmt settings.untraced s) (traceStmt settings.untraced s') := by
  intro m
  obtain ⟨line, hline⟩ := traceStmt_eq s
  obtain ⟨line', hline'⟩ := traceStmt_eq s'
  rw [hline, hline']
  rfl

/-! ## Contexts -/

theorem enter_scope_relocate (enclosing : Option ScopeId) (m : Machine) :
    Host.enter (.scope enclosing) (m.relocate r) =
      (Host.enter (.scope enclosing) m : Machine).relocate r := by
  simp only [Host.enter, Machine.enter, Machine.opened, Machine.relocate, Scopes.next_relocate,
    Scopes.push_relocate]

theorem job_surrounds {α : Type} {mode : Unit} (job job' : Job)
    {good : Machine → Machine → α → α → Prop} :
    (relocating r settings).Surrounds mode mode (.job job) (.job job') m (m.relocate r) good :=
  ⟨rfl, fun _ _ hv ↦ hv, fun hquits ↦ hquits.elim,
    fun {result result'} h ↦ by cases result <;> cases result' <;> exact h⟩

theorem scope_surrounds {α : Type} {mode : Unit} (enclosing : Option ScopeId)
    (good : α → α → Prop) :
    (relocating r settings).Surrounds mode mode (.scope enclosing) (.scope enclosing) m
      (m.relocate r) (fun _ _ ↦ good) where
  valid := enter_scope_relocate enclosing m
  carries _ _ hv := hv
  quits hquits := hquits.elim
  leave {result result'} h := by
    cases result <;> cases result'
    · exact ⟨by rw [h.1]; rfl, trivial, h.2.2⟩
    · exact h
    · exact h
    · exact ⟨h.1, by rw [h.2]; rfl⟩

/-- A fault takes the calls in progress with it, wherever they stand. -/
theorem located_relocate (frames : Array Frame) (halt : Halt) :
    located (frames.map (Frame.relocate r)) (halt.relocate r) = (located frames halt).relocate r := by
  cases halt with
  | failed d =>
    have hframes : (frames.map (Frame.relocate r)).toList.reverse =
        frames.toList.reverse.map (Frame.relocate r) := by
      rw [Array.toList_map, List.map_reverse]
    simp only [located, Halt.relocate, hframes]
    cases hbacktrace : d.backtrace with
    | none => simp [Diagnostic.relocate, hbacktrace]
    | some backtrace => simp [Diagnostic.relocate, hbacktrace]
  | returned | faulted | exhausted | unfinished => rfl

/-- A call is entered, left and recorded in a fault at its new place. -/
theorem call_surrounds {α : Type} {mode : Unit} (frame : Frame) (good : α → α → Prop) :
    (relocating r settings).Surrounds mode mode (.call frame) (.call (frame.relocate r)) m
      (m.relocate r) (fun _ _ ↦ good) := by
  have hempty (after : Machine) : (after.relocate r).frames.isEmpty = after.frames.isEmpty :=
    by simp [Machine.relocate, Array.isEmpty]
  have hpop (after : Machine) : { after.relocate r with frames := (after.relocate r).frames.pop } =
      { after with frames := after.frames.pop }.relocate r := by
    simp only [Machine.relocate, Array.map_pop]
  refine ⟨?_, fun _ _ hv ↦ hv, fun hquits ↦ hquits.elim, fun {result result'} h ↦ ?_⟩
  · change { m.relocate r with frames := (m.relocate r).frames.push (frame.relocate r) } = _
    simp only [Machine.relocate, Host.enter, Machine.enter, Array.map_push]
  · cases result <;> cases result'
    · rw [Machine.leave_call_ok, Machine.leave_call_ok, h.1, hempty]
      split
      · exact ⟨rfl, rfl⟩
      · exact ⟨hpop _, trivial, h.2.2⟩
    · exact h.elim
    · exact h.elim
    · rw [Machine.leave_call_error, Machine.leave_call_error, h.1, h.2, hempty]
      split
      · exact ⟨rfl, rfl⟩
      · exact ⟨located_relocate _ _, hpop _⟩

/-! ## Trees -/

theorem forall₂_relocateAll_expr (es : List Expr) :
    List.Forall₂ (fun e e' ↦ e' = e.relocate r) es (Expr.relocateAll r es) := by
  induction es with
  | nil => exact .nil
  | cons e es ih => exact .cons rfl ih

theorem forall₂_map {γ δ : Type} (f : γ → δ) (xs : List γ) :
    List.Forall₂ (fun x y ↦ y = f x) xs (xs.map f) :=
  List.forall₂_map_right_iff.mpr (List.forall₂_same.mpr fun _ _ ↦ rfl)

theorem rel_map {γ δ : Type} (f : γ → δ) (x : Option γ) :
    Option.Rel (fun y z ↦ z = f y) x (x.map f) := by
  cases x with
  | none => exact .none
  | some y => exact .some rfl

theorem expr_step (e : Expr) : (relocating r settings).ExprStep e (e.relocate r) := by
  cases e with
  | literal a => exact .literal fun _ _ _ ↦ rfl
  | var name => exact .var (value_relates (lookup_follows name))
  | assign name value =>
    refine .assign ?_ rfl
    rintro m m' v _ hm rfl
    exact done_relates (assign_follows name v) m m' hm
  | unary operator operand =>
    refine .unary ?_ rfl
    rintro m m' x _ hm rfl
    exact value_relates (unary_follows operator x) m m' hm
  | binary operator left right =>
    refine .binary ?_ rfl rfl
    rintro m m' x _ y _ hm rfl rfl
    exact value_relates (binary_follows operator x y) m m' hm
  | logical operator left right => exact .logical rfl rfl rfl
  | call callee paren arguments => exact .call rfl rfl (forall₂_relocateAll_expr arguments)
  | grouping e => exact .grouping rfl
  | void => exact .void fun _ _ hm ↦ ⟨rfl, hm⟩

theorem define_relates (mode : Unit) (name : String) :
    (relocating r settings).RelatesOn mode Correspondence.done (define name) (define name) := by
  rintro m m' v _ hm rfl
  exact done_relates (define_follows name v) m m' hm

theorem print_relates (mode : Unit) (text : Value → String)
    (htext : ∀ v : Value, text (v.relocate r) = text v) :
    (relocating r settings).RelatesOn mode Correspondence.done (fun v ↦ print (text v))
      (fun v ↦ print (text v)) := by
  rintro m m' v _ hm rfl
  have hfollows : Follows r id (print (text v)) (print (text (v.relocate r))) := by
    rw [htext]
    exact .modifyGet fun _ ↦ rfl
  exact done_relates hfollows m m' hm

theorem stmt_step (mode : Unit) (s : Stmt) :
    (relocating r settings).StmtStep mode s (s.relocate r) := by
  have hbody (body : List Stmt) :
      List.Forall₂ (fun s s' ↦ s' = s.relocate r) body (Stmt.relocateAll r body) := by
    rw [Stmt.relocateAll_eq_map]
    exact forall₂_map _ body
  cases s with
  | block body => exact .block (hbody body)
  | empty => exact .empty
  | expression value =>
    exact .expression (print_relates mode Value.source (Value.relocate_source r)) rfl
  | function name params body =>
    rw [Stmt.relocate, Stmt.relocateAll_eq_map]
    exact .function (value_relates (makeClosure_follows name params body))
      (define_relates mode name.lexeme)
  | branch condition yes no =>
    refine .branch rfl rfl ?_
    cases no with
    | none => exact .none
    | some no => exact .some rfl
  | print value => exact .print (print_relates mode Value.display (Value.relocate_display r)) rfl
  | ret keyword value =>
    refine .ret ?_ (rel_map _ value)
    rintro m m' v _ hm rfl
    exact ⟨rfl, hm⟩
  | declare name initial => exact .declare (define_relates mode name.lexeme) (rel_map _ initial)
  | loop condition body => exact .loop rfl rfl
  | void => exact .void fun _ _ hm ↦ ⟨rfl, hm⟩

/-! ## Executions -/

/-- Whatever is executed does the same to a relocated machine. -/
theorem relocating_congruence (r : Relocation) (settings : Settings) :
    (relocating r settings).Congruence where
  levels := rfl
  refl _ := trivial
  trans _ _ := trivial
  stops_trans _ h := h
  quits_trans _ h := h
  keeps_lift _ _ := trivial
  stops_lift _ h := h
  quits_lift _ h := h
  carries _ _ _ hv := hv
  calls_keeps _ _ := trivial
  roomy_keeps _ _ := trivial
  unfinished hm := ⟨rfl, hm⟩
  exhausted hm := ⟨rfl, hm⟩
  truthy := by
    rintro m m' v _ rfl
    exact v.relocate_truthy r
  callable? := by
    rintro m m' v _ rfl
    exact v.relocate_callable? r
  value_step := by
    rintro m m' v _ rfl
    cases v with
    | atom a => exact .atom a a
    | native f => exact .native f
    | closure f => exact .closure rfl (forall₂_map _ f.body)
  expr_step := by
    rintro e _ rfl
    exact expr_step e
  stmt_step := by
    rintro mode s _ rfl
    exact stmt_step mode s
  during_expr := by
    rintro e e' n k m _ - rfl
    exact job_surrounds _ _
  during_stmt := by
    rintro mode s s' n k m _ - rfl
    exact job_surrounds _ _
  during_call := by
    rintro f f' paren paren' vs vs' n k m _ rfl - - -
    exact ⟨job_surrounds _ _, trivial⟩
  during_apply := by
    rintro f f' vs vs' n k m _ rfl - -
    exact job_surrounds _ _
  inFrame := by
    rintro f name arity paren _ vs m _ rfl - - rfl -
    exact call_surrounds ⟨name, paren.line⟩ fun v v' : Value ↦ v' = v.relocate r
  inBody := by
    rintro m _ f f' rfl hf
    cases hf
    exact scope_surrounds f.scope fun v v' : Value ↦ v' = v.relocate r
  inBlock := by
    rintro mode _ _ m _ - rfl
    exact scope_surrounds none fun _ _ ↦ True
  notCallable := by
    rintro paren _ rfl
    exact value_relates (fail_follows _ paren)
  checkArity := by
    rintro m m' f name arity vs vs' paren _ hm hvs rfl -
    exact done_relates (checkArity_follows arity vs vs' hvs.length_eq.symm paren) m m' hm
  checkRoom := by
    rintro paren _ rfl
    exact done_relates (checkRoom_follows settings.untraced paren)
  traceCall {m m' vs vs'} name hm _ :=
    done_relates (traceCall_follows name vs vs') m m' hm
  bindParam := define_relates ()
  keeps_body h := h
  stops_body := by
    rintro m m' halt after _ _ - ⟨rfl, rfl⟩
    cases halt with
    | returned v => exact .inl ⟨v, v.relocate r, rfl, rfl, rfl, trivial, rfl⟩
    | failed | faulted | exhausted | unfinished =>
      refine .inr ⟨?_, ?_, rfl, rfl⟩
      all_goals
        intro v hv
        cases hv
  quits_body hquits := hquits.elim
  nil _ := rfl
  readClock := value_relates (.modifyGet fun _ ↦ rfl)
  surplusArguments hm _ := ⟨rfl, hm⟩
  notFunction hm _ := ⟨rfl, hm⟩
  checkText _ _ := done_relates (.pure rfl)
  traceStmt {mode s s'} _ :=
    done_relates (traceStmt_follows s s')

/-- A relocated program does to the relocated machine what the program does to the machine. -/
theorem program_follows (r : Relocation) (settings : Settings) (steps : Nat) (echo : Bool)
    (statements : List Stmt) :
    Follows r id (program settings.untraced steps echo statements)
      (program settings.untraced steps echo (statements.map (Stmt.relocate r))) :=
  follows_of_relates
    ((relocating_congruence r settings).program_relates steps echo (forall₂_map _ statements))

end Lox.Eval
