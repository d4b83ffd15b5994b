import Lox.Proofs.Machine.Conduct

/-!
# What execution can do to a machine in any case

Relations between machines that depend neither on the names in trees nor on the faults that are
found.  They hold across the execution of every tree, on every machine.
-/

namespace Lox

open Stateful

/-- Relations between machines that hold across every change: `evaluates` across those that
expressions can bring about, `executes` across those that statements can bring about. -/
structure Evolution (evaluates executes : Machine → Machine → Prop) : Prop where
  refl : ∀ m, evaluates m m
  trans : ∀ m m' m'', evaluates m m' → evaluates m' m'' → evaluates m m''
  executes_trans : ∀ m m' m'', executes m m' → executes m' m'' → executes m m''
  executes_of_evaluates : ∀ m m', evaluates m m' → executes m m'
  assign : ∀ (m : Machine) name value owner old,
    m.scopes.resolve? m.current name = some (owner, old) →
    evaluates m { m with scopes := m.scopes.define owner name value }
  define : ∀ (m : Machine) name value,
    executes m { m with scopes := m.scopes.define m.current name value }
  makeClosure : ∀ m : Machine, executes m { m with functions := m.functions + 1 }
  readClock : ∀ m : Machine, evaluates m { m with readings := m.readings + 1 }
  print : ∀ (m : Machine) line, executes m { m with console := m.console.print line }
  trace : ∀ (m : Machine) step, evaluates m { m with console := m.console.trace step }
  /-- A scope is opened, and left again at the end. -/
  scope : ∀ (m : Machine) enclosing after,
    executes { m with scopes := m.scopes.push enclosing, current := m.scopes.next } after →
    evaluates m { after with current := m.current }
  /-- A call is made, and over at the end. -/
  frame : ∀ (m : Machine) frame after,
    evaluates { m with frames := m.frames.push frame } after →
    evaluates m { after with frames := after.frames.pop }

namespace Evolution

variable {evaluates executes : Machine → Machine → Prop} (ev : Evolution evaluates executes)
include ev

def conduct : Conduct where
  assigns _ := True
  fault _ := True
  evaluates := evaluates
  executes _ := executes
  fail _ _ := trivial
  overflow _ := trivial
  located _ _ _ := trivial
  refl := ev.refl
  trans := ev.trans
  executes_trans _ := ev.executes_trans
  executes_of_evaluates _ := ev.executes_of_evaluates
  assign m name value owner old _ := ev.assign m name value owner old
  define _ m name value _ := ev.define m name value
  makeClosure _ := ev.makeClosure
  readClock := ev.readClock
  print _ := ev.print
  trace := ev.trace
  scope := ev.scope
  frame := ev.frame

/-- What expressions preserve, evaluating one preserves. -/
theorem expr_moves (settings : Settings) (steps levels : Nat) (e : Expr) :
    Moves evaluates (Eval.expr settings steps levels e) :=
  fun m ↦ ev.conduct.expr_changes m.keepsTo_true settings steps levels e.keepsTo_true

/-- What expressions preserve, applying a function preserves. -/
theorem apply_moves (settings : Settings) (steps levels : Nat) (f : Value) (vs : List Value) :
    Moves evaluates (Eval.apply settings steps levels f vs) :=
  fun m ↦ Conduct.changes_final (((ev.conduct.upheld settings).holdsFor steps).apply levels m f vs
    m.keepsTo_true f.keepsTo_true (fun v _ ↦ v.keepsTo_true) trivial)

/-- What statements preserve, executing one preserves. -/
theorem stmt_moves (settings : Settings) (steps levels : Nat) (s : Stmt) :
    Moves executes (Eval.stmt settings steps levels s) :=
  fun m ↦ ev.conduct.stmt_changes m.keepsTo_true settings steps levels s.keepsTo_true

/-- What statements preserve, a program preserves, whether or not it shows its values. -/
theorem program_moves (settings : Settings) (steps : Nat) (echo : Bool) (statements : List Stmt) :
    Moves executes (Eval.program settings steps echo statements) := by
  intro m
  exact Conduct.changes_final (ev.conduct.program_holds settings steps echo
    (fun s _ ↦ s.keepsTo_true) m m.keepsTo_true)

end Evolution

/-! ## What is restored -/

namespace Machine

/-- The same scope is current and the same calls are in progress as before. -/
structure Restored (before after : Machine) : Prop where
  globals : after.globals = before.globals
  current : after.current = before.current
  frames : after.frames = before.frames

theorem Restored.trans {m m' m'' : Machine} (h : m.Restored m') (h' : m'.Restored m'') :
    m.Restored m'' where
  globals := h'.globals.trans h.globals
  current := h'.current.trans h.current
  frames := h'.frames.trans h.frames

/-- Scopes that are entered are left and calls that are made come to an end. -/
theorem restored_evolution : Evolution Restored Restored where
  refl _ := ⟨rfl, rfl, rfl⟩
  trans _ _ _ h h' := h.trans h'
  executes_trans _ _ _ h h' := h.trans h'
  executes_of_evaluates _ _ h := h
  assign _ _ _ _ _ _ := ⟨rfl, rfl, rfl⟩
  define _ _ _ := ⟨rfl, rfl, rfl⟩
  makeClosure _ := ⟨rfl, rfl, rfl⟩
  readClock _ := ⟨rfl, rfl, rfl⟩
  print _ _ := ⟨rfl, rfl, rfl⟩
  trace _ _ := ⟨rfl, rfl, rfl⟩
  scope _ _ _ h := ⟨h.globals, rfl, h.frames⟩
  frame m frame after h := by
    refine ⟨h.globals, h.current, ?_⟩
    calc after.frames.pop
        = (m.frames.push frame).pop := congrArg Array.pop h.frames
      _ = m.frames := Array.pop_push

def AtRest (m : Machine) : Prop :=
  m.current = m.globals ∧ m.frames = #[]

theorem idle_atRest (m : Machine) : m.idle.AtRest :=
  ⟨rfl, rfl⟩

theorem AtRest.idle_eq {m : Machine} (h : m.AtRest) : m.idle = m := by
  obtain ⟨hcurrent, hframes⟩ := h
  cases m
  simp only at hcurrent hframes
  rw [idle, hcurrent, hframes]

/-- Whatever is executed on a machine at rest, the machine is at rest afterwards. -/
theorem Restored.atRest {m after : Machine} (h : m.Restored after) (hm : m.AtRest) :
    after.AtRest := by
  obtain ⟨hcurrent, hframes⟩ := hm
  constructor
  · rw [h.current, h.globals, hcurrent]
  · rw [h.frames, hframes]

end Machine

end Lox
