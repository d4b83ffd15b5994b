import Lox.Machine

/-!
# Hosts

An execution is made up of single operations on a machine and of executions of its parts, which take
place in a scope, in a call, or as a job that is done.  What carries it out need not be a mere
machine: it may keep more than a machine does, such as a record of what has been done.  A host says
how it carries out an operation, and what becomes of it where a part begins and where it ends.
-/

namespace Lox

inductive Task where
  | expr (e : Expr)
  | call (f : Value) (paren : Token) (values : List Value)
  | apply (f : Value) (values : List Value)
  | stmt (s : Stmt)

/-- A task with the steps and levels left for it. -/
structure Job where
  task : Task
  steps : Nat
  levels : Nat

/-- What a part of an execution is surrounded by. -/
inductive Context where
  | job (job : Job)
  /-- A new scope, inside the current one unless another is given. -/
  | scope (enclosing : Option ScopeId)
  | call (frame : Frame)

/-- What executions can be carried out on. -/
class Host (σ : Type) where
  perform {α : Type} : Eval α → EStateM Halt σ α
  /-- The scope in which names are looked up. -/
  current : σ → ScopeId
  enter : Context → σ → σ
  /-- Comes back to where the scope `before` was current, however the part ended. -/
  leave {α : Type} : Context → (before : ScopeId) → EStateM.Result Halt σ α →
    EStateM.Result Halt σ α

@[inline]
def Host.inside {σ α : Type} [Host σ] (context : Context) (body : EStateM Halt σ α) :
    EStateM Halt σ α := fun s ↦
  let before := current s
  leave context before (body (enter context s))

namespace Machine

@[inline]
def enter : Context → Machine → Machine
  | .job _, m => m
  | .scope enclosing, m => m.opened (enclosing.getD m.current)
  | .call frame, m => { m with frames := m.frames.push frame }

@[inline]
def leave {α : Type} : Context → ScopeId → EStateM.Result Halt Machine α →
    EStateM.Result Halt Machine α
  | .job _, _, result => result
  | .scope _, before, .ok a m => .ok a { m with current := before }
  | .scope _, before, .error halt m => .error halt { m with current := before }
  | .call _, _, .ok a m => (do Eval.popFrame; pure a) m
  | .call _, _, .error halt m => (do Eval.popFrame; throw (Eval.located m.frames halt)) m

/-- A machine keeps nothing but what the operations leave on it. -/
@[inline]
instance : Host Machine where
  perform operation := operation
  current := Machine.current
  enter := enter
  leave := leave

end Machine

end Lox
