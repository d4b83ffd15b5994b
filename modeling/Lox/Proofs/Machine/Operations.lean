import Lox.Machine.Execute
import Lox.Proofs.Stateful

/-!
# What single operations do

Executions are made up of operations on a machine.  For each of them it is said here how it can end.
Everything else that is proved of operations follows from this, so that the definition of an operation
is looked into in one place.
-/

namespace Lox

open Stateful

/-- The settings under which no steps are reported. -/
def Settings.untraced (settings : Settings) : Settings :=
  { settings with traced := false }

/-- The machine after a step has been reported, if that is asked for. -/
def Machine.reported (settings : Settings) (line : String) (m : Machine) : Machine :=
  { m with console := if settings.traced then m.console.trace line else m.console }

namespace Eval

/-! ## Names -/

/-- A name is known or not; looking it up changes nothing. -/
theorem lookup_cases (name : Token) (m : Machine) :
    (∃ owner value, m.scopes.resolve? m.current name.lexeme = some (owner, value) ∧
      lookup name m = .ok value m) ∨
    m.scopes.resolve? m.current name.lexeme = none ∧
      lookup name m = fail (.undefinedVariable name.lexeme) name m := by
  unfold lookup Scopes.get?
  cases h : m.scopes.resolve? m.current name.lexeme with
  | none => exact .inr ⟨rfl, rfl⟩
  | some found => exact .inl ⟨found.1, found.2, rfl, rfl⟩

/-- An assignment goes to the scope in which the name is found, or fails and changes nothing. -/
theorem assign_cases (name : Token) (value : Value) (m : Machine) :
    (∃ owner old, m.scopes.resolve? m.current name.lexeme = some (owner, old) ∧
      assign name value m = .ok () { m with scopes := m.scopes.define owner name.lexeme value }) ∨
    m.scopes.resolve? m.current name.lexeme = none ∧
      assign name value m = fail (.undefinedVariable name.lexeme) name m := by
  unfold assign
  cases h : m.scopes.resolve? m.current name.lexeme with
  | none => exact .inr ⟨rfl, rfl⟩
  | some found => exact .inl ⟨found.1, found.2, rfl, rfl⟩

end Eval

/-! ## Operators -/

namespace Value

def atom? : Value → Option Atom
  | .atom a => some a
  | .closure _ | .native _ => none

variable {x x' y y' : Value}

theorem eq_atom {a : Atom} (h : x.atom? = some a) : x = .atom a := by
  cases x with
  | atom b => rw [Option.some.inj h]
  | closure | native => cases h

theorem truthy_eq (h : x'.atom? = x.atom?) : x'.truthy = x.truthy := by
  cases x <;> cases x' <;> simp_all [atom?, truthy]

theorem shareSort_eq (hx : x'.atom? = x.atom?) (hy : y'.atom? = y.atom?) (sorts : List AtomSort) :
    shareSort sorts [x', y'] = shareSort sorts [x, y] := by
  cases x <;> cases x' <;> cases y <;> cases y' <;> simp_all [atom?, shareSort]

theorem isZero_eq (h : x'.atom? = x.atom?) : x'.isZero = x.isZero := by
  cases x <;> cases x' <;> simp_all [atom?, isZero]

theorem numbers_of_shareSort (h : shareSort [.number] [x, y] = true) :
    ∃ a b, x = .atom (.number a) ∧ y = .atom (.number b) := by
  cases x with
  | closure | native => cases h
  | atom a =>
    cases y with
    | closure | native => cases a <;> cases h
    | atom b =>
      cases a <;> cases b <;> first | exact ⟨_, _, rfl, rfl⟩ | cases h

theorem alike_of_shareSort (h : shareSort [.number, .text] [x, y] = true) :
    (∃ a b, x = .atom (.number a) ∧ y = .atom (.number b)) ∨
      ∃ s t, x = .atom (.text s) ∧ y = .atom (.text t) := by
  cases x with
  | closure | native => cases h
  | atom a =>
    cases y with
    | closure | native => cases a <;> cases h
    | atom b =>
      cases a <;> cases b <;>
        first | exact .inl ⟨_, _, rfl, rfl⟩ | exact .inr ⟨_, _, rfl, rfl⟩ | cases h

end Value

/-- The answer of an operation on two values: an atom, and a text only if it puts them one behind the
other. -/
def Operation.Gives (operation : Operation) (x y : Value) (a : Atom) : Prop :=
  operation x y = .ok a ∧
    ∀ s, a = .text s → ∃ t u, x = .atom (.text t) ∧ y = .atom (.text u) ∧ s = t ++ u

namespace Eval

variable {x x' y y' : Value}

/-- Whether operands are in order depends on the atoms they are. -/
theorem operandFault?_eq (hx : x'.atom? = x.atom?) (hy : y'.atom? = y.atom?) (kind : Kind) :
    operandFault? kind x' y' = operandFault? kind x y := by
  unfold operandFault?
  rw [Value.shareSort_eq hx hy, Value.shareSort_eq hx hy, Value.isZero_eq hy]

/-- Operators that are neither a sum nor a comparison for equality want numbers, and a quotient wants
a divisor other than zero. -/
theorem numbers_of_operandFault? {kind : Kind} (h : operandFault? kind x y = none)
    (hplus : kind ≠ .plus) (hequal : kind ≠ .equalEqual) (hunequal : kind ≠ .bangEqual) :
    Value.shareSort [.number] [x, y] = true ∧ (kind = .slash → y.isZero = false) := by
  unfold operandFault? at h
  split at h
  · exact absurd rfl hplus
  · exact absurd rfl hequal
  · exact absurd rfl hunequal
  · cases hsort : Value.shareSort [.number] [x, y] with
    | false =>
      rw [hsort] at h
      cases h
    | true =>
      refine ⟨rfl, fun hkind ↦ ?_⟩
      cases hzero : y.isZero with
      | false => rfl
      | true =>
        rw [hsort, hzero, hkind] at h
        cases h

theorem onNumbers_gives {f : Float → Float → Except Fault Atom} {a : Float → Float → Atom}
    (hsort : Value.shareSort [.number] [x, y] = true) (hx : x'.atom? = x.atom?)
    (hy : y'.atom? = y.atom?) (hf : ∀ u v, y = .atom (.number v) → f u v = .ok (a u v))
    (ha : ∀ u v s, a u v ≠ .text s) :
    ∃ a, (Operation.onNumbers f).Gives x y a ∧ Operation.onNumbers f x' y' = .ok a := by
  obtain ⟨u, v, rfl, rfl⟩ := Value.numbers_of_shareSort hsort
  obtain rfl := Value.eq_atom hx
  obtain rfl := Value.eq_atom hy
  exact ⟨a u v, ⟨hf u v rfl, fun s hs ↦ absurd hs (ha u v s)⟩, hf u v rfl⟩

theorem add_gives (hsort : Value.shareSort [.number, .text] [x, y] = true)
    (hx : x'.atom? = x.atom?) (hy : y'.atom? = y.atom?) :
    ∃ a, Operation.add.Gives x y a ∧ Operation.add x' y' = .ok a := by
  rcases Value.alike_of_shareSort hsort with ⟨u, v, rfl, rfl⟩ | ⟨s, t, rfl, rfl⟩
  · obtain rfl := Value.eq_atom hx
    obtain rfl := Value.eq_atom hy
    exact ⟨.number (u + v), ⟨rfl, nofun⟩, rfl⟩
  · obtain rfl := Value.eq_atom hx
    obtain rfl := Value.eq_atom hy
    refine ⟨.text (s ++ t), ⟨rfl, fun _ heq ↦ ⟨s, t, rfl, rfl, ?_⟩⟩, rfl⟩
    exact (Atom.text.inj heq).symm

/-- Operands with which nothing is wrong do not break an operation down, and it looks at functions
only to compare them. -/
theorem operation_gives {kind : Kind} {operation : Operation}
    (hoperation : Operation.ofKind? kind = some operation)
    (hfault : operandFault? kind x y = none) (hx : x'.atom? = x.atom?) (hy : y'.atom? = y.atom?)
    (hequal : x'.equal y' = x.equal y) :
    ∃ a, operation.Gives x y a ∧ operation x' y' = .ok a := by
  unfold Operation.ofKind? at hoperation
  split at hoperation
  case h_1 =>
    cases hoperation
    refine add_gives ?_ hx hy
    unfold operandFault? at hfault
    simpa using hfault
  case h_4 =>
    cases hoperation
    obtain ⟨hsort, hzero⟩ := numbers_of_operandFault? hfault nofun nofun nofun
    refine onNumbers_gives (a := fun u v ↦ .number (u / v)) hsort hx hy ?_ nofun
    rintro u v rfl
    have hv : (v == 0) = false := hzero rfl
    simp only [Operation.divide, hv]
    rfl
  case h_5 | h_6 =>
    cases hoperation
    exact ⟨_, ⟨rfl, nofun⟩, by simp only [hequal]⟩
  case h_11 => cases hoperation
  all_goals
    cases hoperation
    exact onNumbers_gives (numbers_of_operandFault? hfault nofun nofun nofun).1 hx hy
      (fun _ _ _ ↦ rfl) nofun

/-- How an operator ends when it is applied to two values, and to two others that are the same
atoms, if they are atoms, and compare in the same way. -/
theorem binary_cases {operator operator' : Token} (hkind : operator'.kind = operator.kind)
    (hx : x'.atom? = x.atom?) (hy : y'.atom? = y.atom?) (hequal : x'.equal y' = x.equal y) :
    (∃ a, binary operator x y = pure (.atom a) ∧ binary operator' x' y' = pure (.atom a) ∧
      ∀ s, a = .text s → ∃ t u, x = .atom (.text t) ∧ y = .atom (.text u) ∧ s = t ++ u) ∨
    (∃ cause, binary operator x y = fail cause operator ∧
      binary operator' x' y' = fail cause operator') ∨
    isBinary operator.kind = false ∧ binary operator x y = throw (.faulted .unknownOperator) ∧
      binary operator' x' y' = throw (.faulted .unknownOperator) := by
  unfold binary
  rw [hkind, operandFault?_eq hx hy]
  cases hbinary : isBinary operator.kind with
  | false => exact .inr (.inr ⟨rfl, rfl, rfl⟩)
  | true =>
    cases hfault : operandFault? operator.kind x y with
    | some cause => exact .inr (.inl ⟨cause, rfl, rfl⟩)
    | none =>
      obtain ⟨operation, hoperation⟩ := Option.isSome_iff_exists.mp hbinary
      obtain ⟨a, ⟨hgives, htext⟩, hgives'⟩ := operation_gives hoperation hfault hx hy hequal
      refine .inl ⟨a, ?_, ?_, htext⟩
      · simp only [hoperation, hgives, if_true]
        rfl
      · simp only [hoperation, hgives', if_true]
        rfl

/-- An operator with one operand gives an atom that is no text, or finds fault with the operand, or
is unknown. -/
theorem unary_cases {operator operator' : Token} (hkind : operator'.kind = operator.kind)
    (hx : x'.atom? = x.atom?) :
    (∃ a, unary operator x = pure (.atom a) ∧ unary operator' x' = pure (.atom a) ∧
      ∀ s, a ≠ .text s) ∨
    (∃ cause, unary operator x = fail cause operator ∧
      unary operator' x' = fail cause operator') ∨
    (operator.kind ≠ .bang ∧ operator.kind ≠ .minus) ∧
      unary operator x = throw (.faulted .unknownOperator) ∧
      unary operator' x' = throw (.faulted .unknownOperator) := by
  unfold unary
  rw [hkind, Value.truthy_eq hx]
  split
  · exact .inl ⟨_, rfl, rfl, nofun⟩
  · cases x with
    | closure | native => cases x' <;> first | exact .inr (.inl ⟨_, rfl, rfl⟩) | cases hx
    | atom a =>
      obtain rfl := Value.eq_atom hx
      cases a <;> first | exact .inl ⟨_, rfl, rfl, nofun⟩ | exact .inr (.inl ⟨_, rfl, rfl⟩)
  · exact .inr (.inr ⟨⟨by assumption, by assumption⟩, rfl, rfl⟩)

/-! ## Checks and reports -/

/-- There is room for one more call, or the call overflows. -/
theorem checkRoom_cases (settings : Settings) (paren : Token) (m : Machine) :
    m.frames.size < settings.calls ∧ checkRoom settings paren m = .ok () m ∨
    settings.calls ≤ m.frames.size ∧ checkRoom settings paren m =
      .error (.failed (.atToken .overflow paren Diagnostic.overflowMessage)) m := by
  unfold checkRoom
  by_cases h : settings.calls ≤ m.frames.size
  · exact .inr ⟨h, if_pos h⟩
  · exact .inl ⟨Nat.lt_of_not_le h, if_neg h⟩

theorem traceStep_eq (settings : Settings) (step : Unit → String) (m : Machine) :
    traceStep settings step m = .ok () (m.reported settings (step ())) := by
  unfold traceStep Machine.reported
  cases settings.traced <;> rfl

theorem traceCall_eq (name : String) (values : List Value) :
    ∃ line, ∀ settings m, traceCall settings name values m = .ok () (m.reported settings line) :=
  ⟨_, fun settings m ↦ traceStep_eq settings _ m⟩

end Eval

/-- The text of a statement is never empty, and so has a first line. -/
theorem Stmt.lines_heading (s : Stmt) : ∃ line others, Text.lines s.heading = line :: others := by
  have hheading : s.heading.toList ≠ [] := by
    cases s <;> simp [Stmt.heading, String.toList_append]
  have hlines : Text.lines s.heading ≠ [] := by
    unfold Text.lines
    simpa using Text.linesFrom_ne_nil (.inr hheading)
  exact List.exists_cons_of_ne_nil hlines

/-! ## Contexts -/

/-- What is reported of a stop inside a context. -/
def Context.report (context : Context) (m : Machine) (halt : Halt) : Halt :=
  match context with
  | .call _ => Eval.located m.frames halt
  | .job _ | .scope _ => halt

namespace Machine

variable {α : Type}

/-- At the end of a call the last frame is taken away, if there is one. -/
theorem leave_call_ok (frame : Frame) (before : ScopeId) (a : α) (m : Machine) :
    Host.leave (.call frame) before (.ok a m) =
      if m.frames.isEmpty then .error (.faulted .missingItem) m
      else .ok a { m with frames := m.frames.pop } := by
  change (do Eval.popFrame; pure a : Eval α) m = _
  cases h : m.frames.isEmpty with
  | true => exact Stateful.bind_of_error (by simp only [Eval.popFrame, h, if_true]) _
  | false => exact Stateful.bind_of_ok (by simp only [Eval.popFrame, h]; rfl) _

theorem leave_call_error (frame : Frame) (before : ScopeId) (halt : Halt) (m : Machine) :
    (Host.leave (.call frame) before (.error halt m) : EStateM.Result Halt Machine α) =
      if m.frames.isEmpty then .error (.faulted .missingItem) m
      else .error (Eval.located m.frames halt) { m with frames := m.frames.pop } := by
  change (do Eval.popFrame; throw (Eval.located m.frames halt) : Eval α) m = _
  cases h : m.frames.isEmpty with
  | true => exact Stateful.bind_of_error (by simp only [Eval.popFrame, h, if_true]) _
  | false => exact Stateful.bind_of_ok (by simp only [Eval.popFrame, h]; rfl) _

/-- The machine after a context has been left, in which the scope `before` is current again. -/
def left (context : Context) (before : ScopeId) (m : Machine) : Machine :=
  match context with
  | .job _ => m
  | .scope _ => { m with current := before }
  | .call _ => { m with frames := m.frames.pop }

section

variable {context : Context} {start m : Machine} (h : m.frames = (Host.enter context start).frames)
include h

/-- Where the calls are in progress that were when the context was entered, it can be left. -/
theorem leave_ok (before : ScopeId) (a : α) :
    Host.leave context before (.ok a m) = .ok a (m.left context before) := by
  cases context with
  | job | scope => rfl
  | call frame =>
    have hframes : m.frames.isEmpty = false := by
      rw [h]
      exact Array.isEmpty_push
    rw [leave_call_ok, hframes]
    rfl

/-- A context that is left because of a stop is left all the same, with what is reported of it. -/
theorem leave_error (before : ScopeId) (halt : Halt) :
    (Host.leave context before (.error halt m) : EStateM.Result Halt Machine α) =
      .error (context.report m halt) (m.left context before) := by
  cases context with
  | job | scope => rfl
  | call frame =>
    have hframes : m.frames.isEmpty = false := by
      rw [h]
      exact Array.isEmpty_push
    rw [leave_call_error, hframes]
    rfl

/-- However executions end that leave the calls in progress alone, leaving the context leaves them
alone too. -/
theorem left_frames (before : ScopeId) : (m.left context before).frames = start.frames := by
  cases context with
  | job | scope => exact h
  | call frame =>
    calc m.frames.pop
        = (start.frames.push frame).pop := congrArg Array.pop h
      _ = start.frames := Array.pop_push

end

theorem pop_frames_of_isEmpty {m : Machine} (h : m.frames.isEmpty = true) :
    { m with frames := m.frames.pop } = m := by
  have hframes : m.frames.pop = m.frames := by
    rw [Array.isEmpty_iff.mp h]
    rfl
  rw [hframes]

end Machine

/-- Reporting a statement is a step like any other. -/
theorem Eval.traceStmt_eq (s : Stmt) :
    ∃ line, ∀ settings m, Eval.traceStmt settings s m = .ok () (m.reported settings line) := by
  obtain ⟨line, others, hlines⟩ := s.lines_heading
  refine ⟨line, fun settings m ↦ ?_⟩
  unfold Eval.traceStmt Machine.reported
  rw [hlines]
  cases settings.traced <;> rfl

/-- Where steps are not reported, no levels are needed for texts. -/
theorem Eval.checkText_of_untraced {σ : Type} {settings : Settings} (h : settings.traced = false)
    (levels : Nat) (s : Stmt) :
    (Eval.checkText settings levels s : EStateM Halt σ Unit) = pure () := by
  rw [Eval.checkText, h]
  rfl

theorem Eval.traceStmt_of_untraced {settings : Settings} (h : settings.traced = false) (s : Stmt) :
    Eval.traceStmt settings s = pure () := by
  rw [Eval.traceStmt, h]
  rfl

end Lox
