import Lox.Value

/-!
# Scopes

A scope holds the values of the names declared in it, and lies in an enclosing scope unless it is
outermost.  Scopes are shared: a function and the code around it see the same scope, and each sees
what the other changes there.

A scope is opened inside one that exists already, so its number is greater than that of the scope
around it.  The search for a name therefore passes at most as many scopes as the number of the
scope where it starts, and one more.
-/

namespace Lox

structure Scope where
  /-- The names declared here, each once, with their values. -/
  bindings : List (String × Value) := []
  enclosing : Option ScopeId := none

namespace Scope

/-- Bindings in which `name` has the value `value` and all else is as it was. -/
def bind (name : String) (value : Value) : List (String × Value) → List (String × Value)
  | [] => [(name, value)]
  | (other, old) :: rest =>
    if other = name then (name, value) :: rest else (other, old) :: bind name value rest

theorem lookup_bind (name other : String) (value : Value) (bindings : List (String × Value)) :
    (bind name value bindings).lookup other =
      if other = name then some value else bindings.lookup other := by
  induction bindings with
  | nil => by_cases h : other = name <;> simp [bind, h]
  | cons binding rest ih =>
    obtain ⟨key, old⟩ := binding
    by_cases hkey : key = name
    · subst hkey
      by_cases h : other = key
      · simp [bind, h]
      · simp [bind, h, List.lookup_cons, beq_eq_false_iff_ne.mpr h]
    · by_cases h : other = name
      · subst h
        simp [bind, hkey, List.lookup_cons, ih, beq_eq_false_iff_ne.mpr (Ne.symm hkey)]
      · simp [bind, hkey, List.lookup_cons, ih, h]

def get? (scope : Scope) (name : String) : Option Value :=
  scope.bindings.lookup name

def set (scope : Scope) (name : String) (value : Value) : Scope :=
  { scope with bindings := bind name value scope.bindings }

@[simp]
theorem get?_set (scope : Scope) (name other : String) (value : Value) :
    (scope.set name value).get? other = if other = name then some value else scope.get? other :=
  lookup_bind name other value scope.bindings

end Scope

structure Scopes where
  all : Array Scope := #[]

namespace Scopes

/-- Opens a scope; its number is the number of scopes before. -/
def push (scopes : Scopes) (enclosing : Option ScopeId) : Scopes :=
  ⟨scopes.all.push { enclosing }⟩

def next (scopes : Scopes) : ScopeId :=
  scopes.all.size

/-- Declares `name` in `scope`, or gives it a new value if it is declared there. -/
def define (scopes : Scopes) (scope : ScopeId) (name : String) (value : Value) : Scopes :=
  ⟨scopes.all.modify scope (·.set name value)⟩

/-- The nearest of at most `count` scopes from `scope` outward that declares `name`, with the value
it has there. -/
def search (scopes : Scopes) (name : String) :
    (count : Nat) → ScopeId → Option (ScopeId × Value)
  | 0, _ => none
  | count + 1, scope =>
    match scopes.all[scope]? with
    | none => none
    | some here =>
      match here.get? name with
      | some value => some (scope, value)
      | none =>
        match here.enclosing with
        | some outer => search scopes name count outer
        | none => none

/-- The nearest scope from `scope` outward that declares `name`, with the value it has there. -/
def resolve? (scopes : Scopes) (scope : ScopeId) (name : String) : Option (ScopeId × Value) :=
  scopes.search name (scope + 1) scope

def get? (scopes : Scopes) (scope : ScopeId) (name : String) : Option Value :=
  (scopes.resolve? scope name).map Prod.snd

/-- Gives `name` a new value in the nearest scope that declares it; there may be none. -/
def assign? (scopes : Scopes) (scope : ScopeId) (name : String) (value : Value) : Option Scopes :=
  match scopes.resolve? scope name with
  | some (owner, _) => some (scopes.define owner name value)
  | none => none

/-- At most `count` scopes from `scope` outward. -/
def chainFrom (scopes : Scopes) : (count : Nat) → ScopeId → List ScopeId
  | 0, _ => []
  | count + 1, scope =>
    match scopes.all[scope]? with
    | none => []
    | some here =>
      scope :: match here.enclosing with
        | some outer => chainFrom scopes count outer
        | none => []

def chain (scopes : Scopes) (scope : ScopeId) : List ScopeId :=
  scopes.chainFrom (scope + 1) scope

/-- The names declared in a scope and their values, by name. -/
def listing (scopes : Scopes) (scope : ScopeId) : List (String × Value) :=
  match scopes.all[scope]? with
  | some here => here.bindings.mergeSort fun a b ↦ decide (a.1 ≤ b.1)
  | none => []

end Scopes

end Lox
