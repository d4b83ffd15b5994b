import Lox.Proofs.Machine.Operations
import Lox.Proofs.Relocation.Tree

/-!
# Relocated machines

Places are kept by the functions on a machine, by the calls in progress and by faults.  What is said
about the program meanwhile makes no difference: a relocated machine says nothing.
-/

namespace Lox

def Frame.relocate (r : Relocation) (frame : Frame) : Frame :=
  { frame with line := r.line frame.line }

def Diagnostic.relocate (r : Relocation) (d : Diagnostic) : Diagnostic :=
  { d with
    line := d.line.map r.line
    offset := d.offset.map r.offset
    backtrace := d.backtrace.map (List.map (Frame.relocate r)) }

/-! ## Values and scopes -/

/-- The name, the parameters and the scope of a function are no places. -/
def Closure.relocate (r : Relocation) (f : Closure) : Closure :=
  { f with body := f.body.map (Stmt.relocate r) }

def Value.relocate (r : Relocation) : Value → Value
  | .atom a => .atom a
  | .closure f => .closure (f.relocate r)
  | .native f => .native f

namespace Value

variable (r : Relocation) (value other : Value)

@[simp]
theorem relocate_truthy : (value.relocate r).truthy = value.truthy := by
  cases value <;> rfl

@[simp]
theorem relocate_display : (value.relocate r).display = value.display := by
  cases value <;> rfl

@[simp]
theorem relocate_source : (value.relocate r).source = value.source := by
  cases value <;> rfl

@[simp]
theorem relocate_callable? : (value.relocate r).callable? = value.callable? := by
  cases value <;> rfl

@[simp]
theorem relocate_atom? : (value.relocate r).atom? = value.atom? := by
  cases value <;> rfl

@[simp]
theorem relocate_equal : (value.relocate r).equal (other.relocate r) = value.equal other := by
  cases value <;> cases other <;> rfl

end Value

namespace Scope

def relocateBinding (r : Relocation) (binding : String × Value) : String × Value :=
  (binding.1, binding.2.relocate r)

def relocate (r : Relocation) (scope : Scope) : Scope :=
  { scope with bindings := scope.bindings.map (relocateBinding r) }

/-- The same names are declared in a relocated scope. -/
theorem get?_relocate (r : Relocation) (scope : Scope) (name : String) :
    (scope.relocate r).get? name = (scope.get? name).map (Value.relocate r) := by
  obtain ⟨bindings, enclosing⟩ := scope
  change (bindings.map (relocateBinding r)).lookup name = (bindings.lookup name).map _
  induction bindings with
  | nil => rfl
  | cons binding rest ih =>
    obtain ⟨key, value⟩ := binding
    rw [List.map_cons, relocateBinding, List.lookup_cons, List.lookup_cons, ih]
    cases name == key <;> rfl

theorem set_relocate (r : Relocation) (scope : Scope) (name : String) (value : Value) :
    (scope.relocate r).set name (value.relocate r) = (scope.set name value).relocate r := by
  obtain ⟨bindings, enclosing⟩ := scope
  have hbind : bind name (value.relocate r) (bindings.map (relocateBinding r)) =
      (bind name value bindings).map (relocateBinding r) := by
    induction bindings with
    | nil => rfl
    | cons binding rest ih =>
      obtain ⟨key, old⟩ := binding
      simp only [List.map_cons, relocateBinding, bind]
      split
      · rfl
      · rw [ih, List.map_cons, relocateBinding]
  simp only [set, relocate, hbind]

end Scope

namespace Scopes

def relocate (r : Relocation) (scopes : Scopes) : Scopes :=
  ⟨scopes.all.map (Scope.relocate r)⟩

theorem getElem?_relocate (r : Relocation) (scopes : Scopes) (id : ScopeId) :
    (scopes.relocate r).all[id]? = scopes.all[id]?.map (Scope.relocate r) :=
  Array.getElem?_map

theorem next_relocate (r : Relocation) (scopes : Scopes) :
    (scopes.relocate r).next = scopes.next :=
  Array.size_map

theorem push_relocate (r : Relocation) (scopes : Scopes) (enclosing : Option ScopeId) :
    (scopes.relocate r).push enclosing = (scopes.push enclosing).relocate r := by
  simp [push, relocate, Scope.relocate]

theorem define_relocate (r : Relocation) (scopes : Scopes) (id : ScopeId) (name : String)
    (value : Value) :
    (scopes.relocate r).define id name (value.relocate r) =
      (scopes.define id name value).relocate r := by
  unfold define relocate
  congr 1
  apply Array.ext_getElem?
  intro i
  simp only [Array.getElem?_modify, Array.getElem?_map]
  split
  · simp only [Option.map_map, Function.comp_def, Scope.set_relocate]
  · rfl

/-- The same scope is found for a name, with the relocated value. -/
theorem search_relocate (r : Relocation) (scopes : Scopes) (name : String) (count : Nat)
    (id : ScopeId) :
    (scopes.relocate r).search name count id =
      (scopes.search name count id).map fun found ↦ (found.1, found.2.relocate r) := by
  induction count generalizing id with
  | zero => rfl
  | succ count ih =>
    unfold search
    rw [getElem?_relocate]
    cases scopes.all[id]? with
    | none => rfl
    | some scope =>
      simp only [Option.map_some, Scope.get?_relocate]
      cases scope.get? name with
      | some value => rfl
      | none =>
        cases henclosing : scope.enclosing with
        | none => simp [Scope.relocate, henclosing]
        | some outer => simpa [Scope.relocate, henclosing] using ih outer

/-- Names are looked up alike in a relocated store. -/
theorem get?_relocate (r : Relocation) (scopes : Scopes) (id : ScopeId) (name : String) :
    (scopes.relocate r).get? id name = (scopes.get? id name).map (Value.relocate r) := by
  simp only [get?, resolve?, search_relocate, Option.map_map]
  rfl

end Scopes

/-! ## Machines -/

def Halt.relocate (r : Relocation) : Halt → Halt
  | .returned value => .returned (value.relocate r)
  | .failed d => .failed (d.relocate r)
  | .faulted fault => .faulted fault
  | .exhausted => .exhausted
  | .unfinished => .unfinished

/-- The console without what was said about the program. -/
def Console.silent (console : Console) : Console :=
  { console with err := "" }

def Machine.relocate (r : Relocation) (m : Machine) : Machine :=
  { m with
    scopes := m.scopes.relocate r
    frames := m.frames.map (Frame.relocate r)
    console := m.console.silent }

theorem Machine.idle_relocate (r : Relocation) (m : Machine) :
    m.idle.relocate r = (m.relocate r).idle := by
  simp [Machine.idle, Machine.relocate]

end Lox
