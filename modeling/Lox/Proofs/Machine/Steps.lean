import Lox.Proofs.Machine.Evolution

/-!
# More steps and more levels

An execution that comes to its end within a number of steps ends in the same way if it is allowed
more, and one that has room enough for nesting ends in the same way if it is given more.  If it has
to give up, what it has printed by then is what it prints first when it does not.

The proof is by induction on the smaller number of steps, for expressions, calls and statements at
once.
-/

namespace Lox

open Stateful

/-! ## What has been printed -/

namespace Machine

def Printed (before after : Machine) : Prop :=
  ∃ text, after.console.out = before.console.out ++ text

theorem printed_of_out_eq {m m' : Machine} (h : m'.console.out = m.console.out) : m.Printed m' :=
  ⟨"", by rw [h, String.append_empty]⟩

theorem Printed.trans {m m' m'' : Machine} (h : m.Printed m') (h' : m'.Printed m'') :
    m.Printed m'' := by
  obtain ⟨text, htext⟩ := h
  obtain ⟨text', htext'⟩ := h'
  exact ⟨text ++ text', by rw [htext', htext, String.append_assoc]⟩

structure Proceeds (before after : Machine) : Prop where
  printed : before.Printed after
  frames : after.frames = before.frames

theorem proceeds_of_eq {m m' : Machine} (hout : m'.console.out = m.console.out)
    (hframes : m'.frames = m.frames) : m.Proceeds m' :=
  ⟨printed_of_out_eq hout, hframes⟩

theorem Proceeds.trans {m m' m'' : Machine} (h : m.Proceeds m') (h' : m'.Proceeds m'') :
    m.Proceeds m'' :=
  ⟨h.printed.trans h'.printed, h'.frames.trans h.frames⟩

theorem Proceeds.left {m m' : Machine} (h : m.Proceeds m') (context : Context) (before : ScopeId) :
    (m.left context before).Proceeds (m'.left context before) := by
  cases context with
  | job | scope => exact ⟨h.printed, h.frames⟩
  | call frame => exact ⟨h.printed, congrArg Array.pop h.frames⟩

/-- What is printed stays printed, and calls that are made come to an end. -/
theorem proceeds_evolution : Evolution Proceeds Proceeds where
  refl _ := proceeds_of_eq rfl rfl
  trans _ _ _ h h' := h.trans h'
  executes_trans _ _ _ h h' := h.trans h'
  executes_of_evaluates _ _ h := h
  assign _ _ _ _ _ _ := proceeds_of_eq rfl rfl
  define _ _ _ := proceeds_of_eq rfl rfl
  makeClosure _ := proceeds_of_eq rfl rfl
  readClock _ := proceeds_of_eq rfl rfl
  print _ line := ⟨⟨line ++ "\n", String.append_assoc⟩, rfl⟩
  trace _ _ := proceeds_of_eq rfl rfl
  scope _ _ _ h := ⟨h.printed, h.frames⟩
  frame m frame after h := by
    have hframes : after.frames = (Host.enter (.call frame) m).frames := h.frames
    exact ⟨h.printed, left_frames hframes m.current⟩

end Machine

namespace Eval

variable {α β : Type}

abbrev printing (settings : Settings) : Discipline Machine :=
  Machine.proceeds_evolution.conduct.discipline settings

theorem printing_upheld (settings : Settings) : (printing settings).Upheld :=
  Machine.proceeds_evolution.conduct.upheld settings

theorem printing_stmt {settings : Settings} (s : Stmt) :
    (printing settings).stmt (some fun _ ↦ True) s :=
  ⟨_, rfl, s.keepsTo_true⟩

/-! ## Giving up -/

/-- Reasons for giving up: a lack of steps if `steps` holds, a lack of levels if `levels` does. -/
def GivesUp (steps levels : Prop) : Halt → Prop
  | .unfinished => steps
  | .exhausted => levels
  | _ => False

/-- `q` ends as `p` does, unless `p` gives up; what `p` has printed then is what `q` prints
first. -/
structure Continues (steps levels : Prop) (p q : Eval α) : Prop where
  ends : ∀ m, (∃ halt after, p m = .error halt after ∧ GivesUp steps levels halt ∧
    after.Proceeds (final (q m))) ∨ q m = p m
  prints : Moves Machine.Proceeds q

variable {steps levels : Prop} {p q : Eval α}

/-- Whatever is as required prints more, at most. -/
theorem moves_of_holds {settings : Settings} {mode : Option (String → Prop)}
    {good : Machine → α → Prop} (h : (printing settings).Holds mode good p) :
    Moves Machine.Proceeds p := by
  intro m
  have hchanges := Conduct.changes_final (h m m.keepsTo_true)
  cases mode <;> exact hchanges

namespace Continues

/-- What succeeds, succeeds in the same way. -/
theorem ok (h : Continues steps levels p q) {m after : Machine} {a : α}
    (hp : p m = .ok a after) : q m = .ok a after := by
  rcases h.ends m with ⟨halt, _, herror, -⟩ | heq
  · rw [hp] at herror
    cases herror
  · rw [heq, hp]

/-- An execution continues itself. -/
theorem refl (h : Moves Machine.Proceeds p) : Continues steps levels p p :=
  ⟨fun _ ↦ .inr rfl, h⟩

/-- An operation is the same, whatever the limits are. -/
theorem once {settings : Settings} {mode : Option (String → Prop)} {good : Machine → α → Prop}
    (h : (printing settings).Holds mode good p) : Continues steps levels p p :=
  .refl (moves_of_holds h)

theorem onValue {settings : Settings} {mode : Option (String → Prop)} {good : Machine → α → Prop}
    {p : Value → Eval α} (h : (printing settings).HoldsOn mode good p) (v : Value) :
    Continues steps levels (p v) (p v) :=
  .once fun m hm ↦ h m v hm v.keepsTo_true

theorem pure (a : α) : Continues steps levels (pure a) (pure a) :=
  .refl fun _ ↦ Machine.proceeds_of_eq rfl rfl

theorem throw (halt : Halt) : Continues steps levels (throw halt : Eval α) (throw halt) :=
  .refl fun _ ↦ Machine.proceeds_of_eq rfl rfl

/-- What gives up at once may continue in any way. -/
theorem of_givesUp {halt : Halt} (h : GivesUp steps levels halt) (hq : Moves Machine.Proceeds q) :
    Continues steps levels (MonadExcept.throw halt) q :=
  ⟨fun m ↦ .inl ⟨halt, m, rfl, h, hq m⟩, hq⟩

/-- Giving up in the first part, `p` has printed no more than `q`, and otherwise both go on alike.
-/
theorem bind {next next' : α → Eval β} (h : Continues steps levels p q)
    (hnext : ∀ a, Continues steps levels (next a) (next' a)) :
    Continues steps levels (p >>= next) (q >>= next') := by
  refine ⟨fun m ↦ ?_, .bind (fun _ _ _ ↦ .trans) h.prints fun a ↦ (hnext a).prints⟩
  rcases h.ends m with ⟨halt, after, hp, hgives, hprinted⟩ | hq
  · refine .inl ⟨halt, after, bind_of_error hp next, hgives, ?_⟩
    cases hq : q m with
    | ok a later =>
      rw [hq] at hprinted
      rw [bind_of_ok hq]
      exact hprinted.trans ((hnext a).prints later)
    | error halt' later =>
      rw [hq] at hprinted
      rw [bind_of_error hq]
      exact hprinted
  · cases hp : p m with
    | ok a after =>
      rw [bind_of_ok hp, bind_of_ok (hq.trans hp)]
      exact (hnext a).ends after
    | error halt after =>
      rw [bind_of_error hp, bind_of_error (hq.trans hp)]
      exact .inr rfl

theorem ite {c : Prop} [Decidable c] {p' q' : Eval α} (h : Continues steps levels p q)
    (h' : Continues steps levels p' q') :
    Continues steps levels (if c then p else p') (if c then q else q') := by
  split
  · exact h
  · exact h'

/-- An execution that gives up does so in every context. -/
theorem inside {body body' : Eval α} (h : Continues steps levels body body') (context : Context) :
    Continues steps levels (Host.inside context body) (Host.inside context body') := by
  have hprints (m : Machine) := h.prints (Host.enter context m)
  have hfinal (m : Machine) : final (Host.inside context body' m) =
      (final (body' (Host.enter context m))).left context m.current := by
    have hframes := (hprints m).frames
    change final (Host.leave context m.current (body' (Host.enter context m))) = _
    generalize body' (Host.enter context m) = r at hframes
    cases r with
    | ok a after => exact congrArg final (Machine.leave_ok hframes m.current a)
    | error halt after => exact congrArg final (Machine.leave_error hframes m.current halt)
  constructor
  · intro m
    rcases h.ends (Host.enter context m) with ⟨halt, after, hbody, hgives, hproceeds⟩ | heq
    · left
      have hframes : after.frames = (Host.enter context m).frames :=
        hproceeds.frames.symm.trans (hprints m).frames
      have hreport : context.report after halt = halt := by
        cases context <;> cases halt <;> first | rfl | exact absurd hgives id
      refine ⟨halt, after.left context m.current, ?_, hgives, ?_⟩
      · change Host.leave context m.current (body (Host.enter context m)) = _
        rw [hbody, Machine.leave_error hframes, hreport]
      · rw [hfinal]
        exact hproceeds.left context m.current
    · right
      change Host.leave context m.current _ = Host.leave context m.current _
      rw [heq]
  · intro m
    rw [hfinal]
    refine ⟨?_, Machine.left_frames (hprints m).frames m.current⟩
    have hprinted := (hprints m).printed
    cases context <;> exact hprinted

/-- A return is caught on both sides, unless `p` gave up before. -/
theorem catchReturn {body body' : Eval Unit} (h : Continues steps levels body body') :
    Continues steps levels (catchReturn body) (catchReturn body') := by
  have hfinal (m : Machine) : final (Eval.catchReturn body' m) = final (body' m) := by
    unfold Eval.catchReturn
    cases body' m with
    | ok _ after => rfl
    | error halt after => cases halt <;> rfl
  constructor
  · intro m
    rcases h.ends m with ⟨halt, after, hbody, hgives, hprinted⟩ | heq
    · left
      refine ⟨halt, after, ?_, hgives, ?_⟩
      · cases halt with
        | unfinished | exhausted => simp only [Eval.catchReturn, hbody]
        | returned | failed | faulted => exact absurd hgives id
      · rw [hfinal]
        exact hprinted
    · right
      simp only [Eval.catchReturn, heq]
  · intro m
    rw [hfinal]
    exact h.prints m

end Continues

theorem define_continues (name : String) (v : Value) :
    Continues steps levels (define name v) (define name v) :=
  .refl fun _ ↦ Machine.proceeds_of_eq rfl rfl

theorem bindAll_continues (names : List String) (values : List Value) :
    Continues steps levels (bindAll names values : Eval Unit) (bindAll names values) := by
  induction names generalizing values with
  | nil => exact .pure ()
  | cons name names ih =>
    cases values with
    | nil => exact .pure ()
    | cons value values => exact .bind (define_continues name value) fun _ ↦ ih values

/-! ## Limits that are raised -/

/-- A limit may only be raised if it counts as giving up to come to it. -/
def Raised (counts : Prop) (limit limit' : Nat) : Prop :=
  limit = limit' ∨ limit ≤ limit' ∧ counts

namespace Raised

variable {counts : Prop} {limit limit' : Nat}

theorem refl (counts : Prop) (limit : Nat) : Raised counts limit limit :=
  .inl rfl

theorem le (h : Raised counts limit limit') : limit ≤ limit' := by
  rcases h with rfl | h
  · exact Nat.le_refl _
  · exact h.1

theorem add (h : Raised counts limit limit') (count : Nat) :
    Raised counts (limit + count) (limit' + count) := by
  rcases h with rfl | h
  · exact .refl _ _
  · exact .inr ⟨Nat.add_le_add_right h.1 count, h.2⟩

/-- Counted down, a limit stays raised. -/
theorem sub (h : Raised counts limit limit') (count : Nat) :
    Raised counts (limit - count) (limit' - count) := by
  rcases h with rfl | h
  · exact .refl _ _
  · exact .inr ⟨Nat.sub_le_sub_right h.1 count, h.2⟩

end Raised

/-- With more levels there may be enough for a text. -/
theorem checkText_continues {settings : Settings} {room wider : Nat} (h : Raised levels room wider)
    (s : Stmt) :
    Continues steps levels (checkText settings room s) (checkText settings wider s) := by
  have hprints : Moves Machine.Proceeds (checkText settings wider s) :=
    moves_of_holds ((printing_upheld settings).checkText_holds none wider s)
  rcases h with rfl | ⟨hle, hlevels⟩
  · exact .refl hprints
  by_cases hroom : (settings.traced && decide (room < s.textLevels)) = true
  · have hgives : (checkText settings room s : Eval Unit) = MonadExcept.throw .exhausted :=
      if_pos hroom
    rw [hgives]
    exact .of_givesUp hlevels hprints
  · have hwider : ¬(settings.traced && decide (wider < s.textLevels)) = true := by
      simp only [Bool.and_eq_true, decide_eq_true_eq] at hroom ⊢
      exact fun h ↦ hroom ⟨h.1, Nat.lt_of_le_of_lt hle h.2⟩
    rw [checkText, checkText, if_neg hroom, if_neg hwider]
    exact .pure ()

/-- Executions of at most `count` steps end in the same way if `more` steps and more levels are
allowed. -/
structure ContinuesFor (steps levels : Prop) (settings : Settings) (count more : Nat) : Prop where
  expr : ∀ room wider e, Raised levels room wider →
    Continues steps levels (expr settings count room e) (expr settings more wider e)
  exprs : ∀ room wider es, Raised levels room wider →
    Continues steps levels (exprs settings count room es) (exprs settings more wider es)
  call : ∀ room wider f paren values, Raised levels room wider →
    Continues steps levels (call settings count room f paren values)
      (call settings more wider f paren values)
  apply : ∀ room wider f values, Raised levels room wider →
    Continues steps levels (apply settings count room f values)
      (apply settings more wider f values)
  stmt : ∀ room wider s, Raised levels room wider →
    Continues steps levels (stmt settings count room s) (stmt settings more wider s)
  loop : ∀ room wider condition body, Raised levels room wider →
    Continues steps levels (loop settings count room condition body)
      (loop settings more wider condition body)
  stmts : ∀ room wider body, Raised levels room wider →
    Continues steps levels (stmts settings count room body) (stmts settings more wider body)

variable {settings : Settings}

/-- Without any steps nothing is begun. -/
theorem continuesFor_zero {more : Nat} (h : Raised steps 0 more) :
    ContinuesFor steps levels settings 0 more := by
  have hprints := (printing_upheld settings).holdsFor more
  have hunfinished {α : Type} {q : Eval α} (hq : Moves Machine.Proceeds q)
      (hzero : more = 0 → q = MonadExcept.throw .unfinished) :
      Continues steps levels (MonadExcept.throw .unfinished) q := by
    rcases h with hmore | ⟨-, hsteps⟩
    · rw [hzero hmore.symm]
      exact .throw .unfinished
    · exact .of_givesUp hsteps hq
  constructor
  case expr =>
    intro room wider e _
    rw [expr]
    refine hunfinished (moves_of_holds (hprints.expr wider e e.keepsTo_true)) ?_
    rintro rfl
    rw [expr]
  case exprs =>
    intro room wider es _
    rw [exprs]
    refine hunfinished (moves_of_holds (hprints.exprs wider es fun e _ ↦ e.keepsTo_true)) ?_
    rintro rfl
    rw [exprs]
  case call =>
    intro room wider f paren values _
    rw [call]
    refine hunfinished (moves_of_holds fun m hm ↦ hprints.call wider m f paren values hm
      f.keepsTo_true fun v _ ↦ v.keepsTo_true) ?_
    rintro rfl
    rw [call]
  case apply =>
    intro room wider f values _
    rw [apply]
    refine hunfinished (moves_of_holds fun m hm ↦ hprints.apply wider m f values hm
      f.keepsTo_true (fun v _ ↦ v.keepsTo_true) trivial) ?_
    rintro rfl
    rw [apply]
  case stmt =>
    intro room wider s _
    rw [stmt]
    refine hunfinished (moves_of_holds (hprints.stmt wider _ s (printing_stmt s))) ?_
    rintro rfl
    rw [stmt]
  case loop =>
    intro room wider condition body _
    rw [loop]
    refine hunfinished (moves_of_holds (hprints.loop wider _ condition body condition.keepsTo_true
      (printing_stmt body))) ?_
    rintro rfl
    rw [loop]
  case stmts =>
    intro room wider body _
    rw [stmts]
    refine hunfinished (moves_of_holds (hprints.stmts wider _ body fun s _ ↦ printing_stmt s)) ?_
    rintro rfl
    rw [stmts]

section

variable {count more : Nat} (ih : ContinuesFor steps levels settings count more)
include ih

/-- One more step for an expression, with the steps before for its parts. -/
theorem expr_continues (room wider : Nat) (e : Expr) (h : Raised levels room wider) :
    Continues steps levels (expr settings (count + 1) room e)
      (expr settings (more + 1) wider e) := by
  by_cases hroom : room < 3
  · rw [expr_exhausted settings count hroom]
    rcases h with rfl | ⟨-, hlevels⟩
    · rw [expr_exhausted settings more hroom]
      exact .throw .exhausted
    · have hprints := Machine.proceeds_evolution.expr_moves settings (more + 1) wider e
      exact .of_givesUp hlevels hprints
  obtain ⟨room, rfl⟩ : ∃ below, room = below + 3 := ⟨room - 3, by omega⟩
  obtain ⟨wider, rfl⟩ : ∃ below, wider = below + 3 := ⟨wider - 3, by have := h.le; omega⟩
  have hbelow : Raised levels room wider := h.sub 3
  have hstep := (printing_upheld settings).expr_step e.keepsTo_true
  unfold expr
  refine .inside ?_ _
  cases e with
  | literal value => exact .pure _
  | var name => exact .once hstep
  | void => exact .throw _
  | assign name value =>
    exact .bind (ih.expr room wider value hbelow) fun v ↦ .bind (.onValue hstep.1 v) fun _ ↦ .pure v
  | unary operator operand =>
    exact .bind (ih.expr room wider operand hbelow) (.onValue hstep.1)
  | binary operator left right =>
    exact .bind (ih.expr room wider left hbelow) fun x ↦
      .bind (ih.expr room wider right hbelow) fun y ↦
        .once fun m hm ↦ hstep.1 m x y hm x.keepsTo_true y.keepsTo_true
  | logical operator left right =>
    exact .bind (ih.expr room wider left hbelow) fun x ↦
      .ite (.pure x) (ih.expr room wider right hbelow)
  | call callee paren arguments =>
    exact .bind (ih.expr room wider callee hbelow) fun f ↦
      .bind (ih.exprs room wider arguments hbelow) fun values ↦
        ih.call room wider f paren values hbelow
  | grouping inner => exact ih.expr room wider inner hbelow

theorem exprs_continues (room wider : Nat) (es : List Expr) (h : Raised levels room wider) :
    Continues steps levels (exprs settings (count + 1) room es)
      (exprs settings (more + 1) wider es) := by
  cases es with
  | nil =>
    rw [exprs, exprs]
    exact .pure _
  | cons e es =>
    rw [exprs, exprs]
    exact .bind (ih.expr room wider e h) fun _ ↦ .bind (ih.exprs room wider es h) fun _ ↦ .pure _

/-- One more step for a call; the room for its arguments is counted down on both sides. -/
theorem call_continues (room wider : Nat) (f : Value) (paren : Token) (values : List Value)
    (h : Raised levels room wider) :
    Continues steps levels (call settings (count + 1) room f paren values)
      (call settings (more + 1) wider f paren values) := by
  have hprints := printing_upheld settings
  have hvalues : ∀ v ∈ values, v.KeepsTo fun _ ↦ True := fun v _ ↦ v.keepsTo_true
  unfold call
  refine .inside ?_ _
  cases hcallable : f.callable? with
  | none => exact .throw _
  | some callable =>
    refine .bind (.once fun m hm ↦ hprints.checkArity hm hvalues hcallable) fun _ ↦ ?_
    refine .bind (.once hprints.checkRoom) fun _ ↦ ?_
    refine .bind (.once fun m hm ↦ hprints.traceCall callable.1 hm hvalues) fun _ ↦ ?_
    exact .inside (ih.apply room wider f values h) _

theorem apply_continues (room wider : Nat) (f : Value) (values : List Value)
    (h : Raised levels room wider) :
    Continues steps levels (apply settings (count + 1) room f values)
      (apply settings (more + 1) wider f values) := by
  unfold apply
  refine .inside ?_ _
  cases f with
  | atom a => exact .throw _
  | native function => exact .ite (.once (printing_upheld settings).readClock) (.throw _)
  | closure function =>
    refine .inside ?_ _
    exact .bind (bindAll_continues function.params values) fun _ ↦
      .catchReturn (ih.stmts (room - 3) (wider - 3) function.body (h.sub 3))

/-- One more step for a statement. -/
theorem stmt_continues (room wider : Nat) (s : Stmt) (h : Raised levels room wider) :
    Continues steps levels (stmt settings (count + 1) room s)
      (stmt settings (more + 1) wider s) := by
  by_cases hroom : room < 3
  · rw [stmt_exhausted settings count hroom]
    rcases h with rfl | ⟨-, hlevels⟩
    · rw [stmt_exhausted settings more hroom]
      exact .throw .exhausted
    · have hprints := Machine.proceeds_evolution.stmt_moves settings (more + 1) wider s
      exact .of_givesUp hlevels hprints
  obtain ⟨room, rfl⟩ : ∃ below, room = below + 3 := ⟨room - 3, by omega⟩
  obtain ⟨wider, rfl⟩ : ∃ below, wider = below + 3 := ⟨wider - 3, by have := h.le; omega⟩
  have hbelow : Raised levels room wider := h.sub 3
  have hprints := printing_upheld settings
  unfold stmt
  refine .inside ?_ _
  refine .bind (checkText_continues (hbelow.add 2) s) fun _ ↦ ?_
  refine .bind (.once (hprints.traceStmt (printing_stmt s))) fun _ ↦ ?_
  cases s with
  | empty => exact .pure ()
  | void => exact .throw _
  | block body =>
    exact .inside (ih.stmts (room - 1) (wider - 1) body (hbelow.sub 1)) _
  | function name params body =>
    exact .bind (.refl fun _ ↦ Machine.proceeds_of_eq rfl rfl) fun f ↦
      define_continues name.lexeme f
  | expression value =>
    exact .bind (ih.expr room wider value hbelow) fun _ ↦ .pure ()
  | print value =>
    refine .bind (ih.expr room wider value hbelow) fun v ↦ .refl ?_
    exact fun m ↦ Machine.proceeds_evolution.print m v.display
  | branch condition yes no =>
    refine .bind (ih.expr room wider condition hbelow) fun value ↦
      .ite (ih.stmt room wider yes hbelow) ?_
    cases no with
    | none => exact .pure ()
    | some no => exact ih.stmt room wider no hbelow
  | ret keyword value =>
    cases value with
    | none => exact .throw _
    | some value => exact .bind (ih.expr room wider value hbelow) fun _ ↦ .throw _
  | declare name initial =>
    cases initial with
    | none => exact define_continues name.lexeme _
    | some initial =>
      exact .bind (ih.expr room wider initial hbelow) fun v ↦
        define_continues name.lexeme v
  | loop condition body => exact ih.loop room wider condition body hbelow

theorem loop_continues (room wider : Nat) (condition : Expr) (body : Stmt)
    (h : Raised levels room wider) :
    Continues steps levels (loop settings (count + 1) room condition body)
      (loop settings (more + 1) wider condition body) := by
  unfold loop
  refine .bind (ih.expr room wider condition h) fun value ↦ .ite ?_ (.pure ())
  exact .bind (ih.stmt room wider body h) fun _ ↦ ih.loop room wider condition body h

theorem stmts_continues (room wider : Nat) (body : List Stmt) (h : Raised levels room wider) :
    Continues steps levels (stmts settings (count + 1) room body)
      (stmts settings (more + 1) wider body) := by
  cases body with
  | nil =>
    rw [stmts, stmts]
    exact .pure ()
  | cons s rest =>
    rw [stmts, stmts]
    exact .bind (ih.stmt room wider s h) fun _ ↦ ih.stmts room wider rest h

theorem continuesFor_succ : ContinuesFor steps levels settings (count + 1) (more + 1) where
  expr := expr_continues ih
  exprs := exprs_continues ih
  call := call_continues ih
  apply := apply_continues ih
  stmt := stmt_continues ih
  loop := loop_continues ih
  stmts := stmts_continues ih

end

/-- With limits raised, whatever is executed continues what would have been given up. -/
theorem continuesFor {count more : Nat} (h : Raised steps count more) :
    ContinuesFor steps levels settings count more := by
  induction count generalizing more with
  | zero => exact continuesFor_zero h
  | succ count ih =>
    obtain ⟨more, rfl⟩ : ∃ fewer, more = fewer + 1 := ⟨more - 1, by have := h.le; omega⟩
    exact continuesFor_succ (ih (h.sub 1))

/-- A program that comes to its end does so in the same way if more steps are allowed. -/
theorem program_continues {count more : Nat} (h : count ≤ more) (echo : Bool)
    (statements : List Stmt) :
    Continues True False (program settings count echo statements)
      (program settings more echo statements) := by
  have hsteps : ContinuesFor True False settings count more := continuesFor (.inr ⟨h, trivial⟩)
  induction statements with
  | nil => exact .pure ()
  | cons s rest ih =>
    have hlevels := Raised.refl False settings.levels
    unfold program
    split
    · refine .bind (hsteps.expr _ _ _ hlevels) fun v ↦ .bind (.refl ?_) fun _ ↦ ih
      exact fun m ↦ Machine.proceeds_evolution.print m v.source
    · exact .bind (hsteps.stmt _ _ _ hlevels) fun _ ↦ ih

end Eval

end Lox
