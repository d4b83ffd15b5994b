import Lox.Proofs.Machine.Congruence
import Lox.Proofs.Machine.Course
import Lox.Proofs.Machine.Nesting

/-!
# Executions side by side

The same trees are executed on two machines.  The machines need not be equal: scopes and functions
may be numbered differently, the clock may have been read more often on one of them, and they may
have different consoles.  As long as every operation finds on the second machine what corresponds to
what it finds on the first, the two executions take the same course and end alike.  Only where steps
are reported on the first machine alone can its execution end before the other one, for want of levels
for a report.

What corresponds is said by a `Coupling`.  Values that are under way have to correspond too, and
whether they do can depend on how many scopes there are, since a function may lie in any of them; as
scopes are never taken away, values that once correspond always will.

The first of the two executions is recorded, so that the result is about every machine it passes.
-/

namespace Lox

open Stateful

/-! ## Values -/

/-- Values that are the same, but for the numbers of functions and scopes. -/
inductive Value.Corresponds (functions : Nat) (scope : ScopeId → ScopeId → Prop) :
    Value → Value → Prop
  | atom (a : Atom) : Corresponds functions scope (.atom a) (.atom a)
  | native (f : Native) : Corresponds functions scope (.native f) (.native f)
  | closure {f : Closure} {id : ScopeId} (h : scope f.scope id) :
      Corresponds functions scope (.closure f)
        (.closure { f with id := f.id + functions, scope := id })

namespace Value.Corresponds

variable {functions : Nat} {scope : ScopeId → ScopeId → Prop} {x x' y y' : Value}

/-- More scopes may correspond. -/
theorem imp {scope' : ScopeId → ScopeId → Prop} (h : x.Corresponds functions scope x')
    (himp : ∀ id id', scope id id' → scope' id id') : x.Corresponds functions scope' x' := by
  cases h with
  | atom a => exact .atom a
  | native f => exact .native f
  | closure h => exact .closure (himp _ _ h)

/-- A value corresponds to itself if the scope of a function does. -/
theorem refl (h : ∀ f : Closure, x = .closure f → scope f.scope f.scope) :
    x.Corresponds 0 scope x := by
  cases x with
  | atom a => exact .atom a
  | native f => exact .native f
  | closure f => exact .closure (h f rfl)

/-- Values that correspond under the identity are the same. -/
theorem eq (h : x.Corresponds 0 (fun id id' ↦ id' = id) x') : x' = x := by
  cases h with
  | atom | native => rfl
  | closure h => rw [h, Nat.add_zero]

theorem truthy (h : x.Corresponds functions scope x') : x'.truthy = x.truthy := by
  cases h <;> rfl

theorem display (h : x.Corresponds functions scope x') : x'.display = x.display := by
  cases h <;> rfl

theorem source (h : x.Corresponds functions scope x') : x'.source = x.source := by
  cases h <;> rfl

theorem callable? (h : x.Corresponds functions scope x') : x'.callable? = x.callable? := by
  cases h <;> rfl

theorem atom? (h : x.Corresponds functions scope x') : x'.atom? = x.atom? := by
  cases h <;> rfl

/-- Functions are told apart in the same way. -/
theorem equal (hx : x.Corresponds functions scope x') (hy : y.Corresponds functions scope y') :
    x'.equal y' = x.equal y := by
  cases hx with
  | atom a => cases hy <;> rfl
  | native f => cases hy <;> rfl
  | @closure f id h =>
    cases hy with
    | atom | native => rfl
    | @closure g id' h' =>
      change (f.id + functions == g.id + functions) = (f.id == g.id)
      rw [Bool.eq_iff_iff, beq_iff_eq, beq_iff_eq, Nat.add_right_cancel_iff]

end Value.Corresponds

/-- Scopes may have been opened, and the same calls are in progress. -/
structure Machine.Persists (before after : Machine) : Prop where
  scopes : before.scopes.Grows after.scopes
  frames : after.frames = before.frames

namespace Machine.Persists

theorem refl (m : Machine) : m.Persists m :=
  ⟨.refl _, rfl⟩

theorem trans {m m' m'' : Machine} (h : m.Persists m') (h' : m'.Persists m'') : m.Persists m'' :=
  ⟨h.scopes.trans h'.scopes, h'.frames.trans h.frames⟩

end Machine.Persists

/-! ## Couplings -/

/-- What corresponds on two machines.  The laws say that whatever is done to both keeps it so. -/
structure Coupling where
  /-- How much greater the numbers of functions are on the second machine. -/
  functions : Nat
  /-- How much more often the clock of the second machine has been read. -/
  readings : Nat
  globals : ScopeId → ScopeId → Prop
  console : Console → Console → Prop
  /-- The scopes that correspond when there are `count` scopes on the first machine. -/
  scope : (count : Nat) → ScopeId → ScopeId → Prop
  scopes : Scopes → Scopes → Prop
  print : ∀ {a a' : Console} (line : String), console a a' → console (a.print line) (a'.print line)
  scope_mono : ∀ {count count' : Nat} {id id' : ScopeId}, count ≤ count' → scope count id id' →
    scope count' id id'
  opened : ∀ {s s' : Scopes}, scopes s s' → scope (s.next + 1) s.next s'.next
  push : ∀ {s s' : Scopes} {id id' : ScopeId}, scopes s s' → scope s.next id id' →
    scopes (s.push id) (s'.push id')
  define : ∀ {s s' : Scopes} {id id' : ScopeId} {v v' : Value} (name : String), scopes s s' →
    scope s.next id id' → v.Corresponds functions (scope s.next) v' →
    scopes (s.define id name v) (s'.define id' name v')
  /-- A name is found in both stores or in neither, with values that correspond, and it can be given
  a new value where it is found. -/
  resolve : ∀ {s s' : Scopes} {id id' : ScopeId} (name : String), scopes s s' →
    scope s.next id id' →
    Option.Rel (fun found found' ↦ found.2.Corresponds functions (scope s.next) found'.2 ∧
        ∀ v v' : Value, v.Corresponds functions (scope s.next) v' →
          scopes (s.define found.1 name v) (s'.define found'.1 name v'))
      (s.resolve? id name) (s'.resolve? id' name)

namespace Coupling

/-- Settings under which the two machines are treated alike. -/
structure Fits (c : Coupling) (settings settings' : Settings) : Prop where
  levels : settings'.levels = settings.levels
  calls : settings'.calls = settings.calls
  clock : ∀ reading, settings'.clock (reading + c.readings) = settings.clock reading
  /-- Steps may be reported on the first machine only. -/
  traced : settings'.traced = settings.traced ∨ settings'.traced = false
  trace : ∀ {a a' : Console} (step : String), c.console a a' →
    c.console (if settings.traced then a.trace step else a)
      (if settings'.traced then a'.trace step else a')

/-- Where the consoles are the same, so are the settings. -/
theorem fits_of_console_eq {c : Coupling} (hreadings : c.readings = 0)
    (hconsole : ∀ a a', c.console a a' ↔ a' = a) (settings : Settings) :
    c.Fits settings settings where
  levels := rfl
  calls := rfl
  clock reading := by rw [hreadings, Nat.add_zero]
  traced := .inl rfl
  trace {a a'} step h := by
    rw [hconsole] at h ⊢
    rw [h]

theorem print_eq {console console' : Console} (line : String) (h : console' = console) :
    console'.print line = console.print line := by
  rw [h]

variable (c : Coupling)

abbrev value (count : Nat) : Value → Value → Prop :=
  Value.Corresponds c.functions (c.scope count)

abbrev values (count : Nat) : List Value → List Value → Prop :=
  List.Forall₂ (c.value count)

def halts (count : Nat) : Halt → Halt → Prop
  | .returned v, .returned v' => c.value count v v'
  | halt, halt' => halt = halt'

structure Coupled (m m' : Machine) : Prop where
  scopes : c.scopes m.scopes m'.scopes
  globals : c.globals m.globals m'.globals
  current : c.scope m.scopes.next m.current m'.current
  frames : m'.frames = m.frames
  functions : m'.functions = m.functions + c.functions
  readings : m'.readings = m.readings + c.readings
  console : c.console m.console m'.console

/-- A course and a machine on which the same has been executed meanwhile. -/
structure Joins (record : Record) (m' : Machine) : Prop where
  coupled : c.Coupled record.machine m'
  passed : ∀ m ∈ record.passed, ∃ m', c.Coupled m m'
  grown : ∀ m ∈ record.passed, m.scopes.Grows record.machine.scopes
  ordered : record.passed.Pairwise fun later earlier ↦ earlier.scopes.Grows later.scopes

variable {α : Type} {good : Nat → α → α → Prop}

/-- Executions of which the first began on the machine `before` end alike. -/
def Done (good : Nat → α → α → Prop) (before : Machine) :
    EStateM.Result Halt Machine α → EStateM.Result Halt Machine α → Prop
  | .ok a m, .ok b m' => c.Coupled m m' ∧ before.Persists m ∧ good m.scopes.next a b
  | .error halt m, .error halt' m' =>
    c.Coupled m m' ∧ before.Persists m ∧ c.halts m.scopes.next halt halt'
  | _, _ => False

/-- Courses on the first machine correspond to executions on the second.  Where steps are reported on
the first machine only, there may not be levels enough for a report. -/
def correspondence (settings settings' : Settings) : Correspondence Record Machine where
  settings
  settings'
  Mode := Unit
  inner := ()
  applied := ()
  bound := ()
  body := ()
  block := id
  valid := c.Joins
  keeps _ record _ after _ := record.machine.Persists after.machine
  stops _ record _ halt after halt' m' := c.Joins after m' ∧
    record.machine.Persists after.machine ∧ c.halts after.machine.scopes.next halt halt'
  quits _ record halt after := settings'.traced ≠ settings.traced ∧ halt = .exhausted ∧
    after.machine.frames = record.machine.frames
  value record _ := c.value record.machine.scopes.next
  expr e e' := e' = e
  stmt _ s s' := s' = s
  paren paren paren' := paren' = paren
  fits _ _ := True
  calls _ _ _ _ _ := True
  roomy _ _ := True

variable {c}

theorem value_mono {count count' : Nat} (h : count ≤ count') {v v' : Value}
    (hv : c.value count v v') : c.value count' v v' :=
  hv.imp fun _ _ ↦ c.scope_mono h

theorem values_mono {count count' : Nat} (h : count ≤ count') {vs vs' : List Value}
    (hvs : c.values count vs vs') : c.values count' vs vs' :=
  hvs.imp fun _ _ ↦ value_mono h

theorem Coupled.start {m m' : Machine} (h : c.Coupled m m') : c.Joins (.start m) m' where
  coupled := h
  passed := by
    intro other hother
    rw [List.mem_singleton.mp hother]
    exact ⟨m', h⟩
  grown := by
    intro other hother
    rw [List.mem_singleton.mp hother]
    exact .refl _
  ordered := List.pairwise_singleton _ _

/-- Something was executed on both machines, and they are still coupled. -/
theorem Joins.reach {record : Record} {m m' m'' : Machine} (h : c.Joins record m')
    (hcoupled : c.Coupled m m'') (hgrows : record.machine.scopes.Grows m.scopes) :
    c.Joins (record.reach m) m'' where
  coupled := hcoupled
  passed := List.forall_mem_cons.mpr ⟨⟨m'', hcoupled⟩, h.passed⟩
  grown := List.forall_mem_cons.mpr
    ⟨.refl _, fun earlier hearlier ↦ (h.grown earlier hearlier).trans hgrows⟩
  ordered := List.pairwise_cons.mpr
    ⟨fun earlier hearlier ↦ (h.grown earlier hearlier).trans hgrows, h.ordered⟩

/-! ## Operations -/

/-- Nothing but the console changes, if anything. -/
theorem Coupled.withConsole {m m' : Machine} (h : c.Coupled m m') {console console' : Console}
    (hconsole : c.console console console') :
    c.Coupled { m with console } { m' with console := console' } :=
  ⟨h.scopes, h.globals, h.current, h.frames, h.functions, h.readings, hconsole⟩

/-- Changing the stores of both machines to stores that correspond keeps them coupled. -/
theorem Coupled.withScopes {m m' : Machine} (h : c.Coupled m m') {s s' : Scopes}
    (hscopes : c.scopes s s') (hgrows : m.scopes.Grows s) :
    c.Coupled { m with scopes := s } { m' with scopes := s' } :=
  ⟨hscopes, h.globals, c.scope_mono hgrows.next h.current, h.frames, h.functions, h.readings,
    h.console⟩

section

variable {m m' : Machine} (h : c.Coupled m m')
include h

theorem fail_done (cause : RuntimeCause) (token : Token) :
    c.Done good m (Eval.fail cause token m) (Eval.fail cause token m') :=
  ⟨h, .refl _, rfl⟩

/-- A name is found on both machines or on neither. -/
theorem resolve_cases (name : String) :
    (∃ owner v owner' v', m.scopes.resolve? m.current name = some (owner, v) ∧
      m'.scopes.resolve? m'.current name = some (owner', v') ∧ c.value m.scopes.next v v' ∧
      ∀ w w', c.value m.scopes.next w w' →
        c.scopes (m.scopes.define owner name w) (m'.scopes.define owner' name w')) ∨
    m.scopes.resolve? m.current name = none ∧ m'.scopes.resolve? m'.current name = none := by
  have hresolve := c.resolve name h.scopes h.current
  cases hfound : m.scopes.resolve? m.current name <;>
    cases hfound' : m'.scopes.resolve? m'.current name <;> rw [hfound, hfound'] at hresolve
  · exact .inr ⟨rfl, rfl⟩
  · cases hresolve
  · cases hresolve
  · obtain ⟨hvalue, hdefine⟩ := Option.rel_some_some.mp hresolve
    exact .inl ⟨_, _, _, _, rfl, rfl, hvalue, hdefine⟩

/-- A name has values that correspond, or is unknown on both machines. -/
theorem lookup_done (name : Token) :
    c.Done c.value m (Eval.lookup name m) (Eval.lookup name m') := by
  unfold Eval.lookup Scopes.get?
  rcases resolve_cases h name.lexeme with ⟨_, v, _, v', hfound, hfound', hvalue, -⟩ | ⟨hnone, hnone'⟩
  · rw [hfound, hfound']
    exact ⟨h, .refl _, hvalue⟩
  · rw [hnone, hnone']
    exact fail_done h _ name

/-- An assignment reaches scopes that correspond, or fails on both machines. -/
theorem assign_done (name : Token) {v v' : Value} (hv : c.value m.scopes.next v v') :
    c.Done (fun _ _ _ ↦ True) m (Eval.assign name v m) (Eval.assign name v' m') := by
  unfold Eval.assign
  rcases resolve_cases h name.lexeme with
    ⟨owner, _, owner', _, hfound, hfound', -, hdefine⟩ | ⟨hnone, hnone'⟩
  · rw [hfound, hfound']
    have hgrows := m.scopes.grows_define owner name.lexeme v
    exact ⟨h.withScopes (hdefine v v' hv) hgrows, ⟨hgrows, rfl⟩, trivial⟩
  · rw [hnone, hnone']
    exact fail_done h _ name

theorem define_done (name : String) {v v' : Value} (hv : c.value m.scopes.next v v') :
    c.Done (fun _ _ _ ↦ True) m (Eval.define name v m) (Eval.define name v' m') := by
  have hgrows := m.scopes.grows_define m.current name v
  exact ⟨h.withScopes (c.define name h.scopes h.current hv) hgrows, ⟨hgrows, rfl⟩, trivial⟩

/-- Operators depend on values only as far as these correspond. -/
theorem binary_done (operator : Token) {x x' y y' : Value} (hx : c.value m.scopes.next x x')
    (hy : c.value m.scopes.next y y') :
    c.Done c.value m (Eval.binary operator x y m) (Eval.binary operator x' y' m') := by
  rcases Eval.binary_cases (rfl : operator.kind = operator.kind) hx.atom? hy.atom? (hx.equal hy) with
    ⟨a, heq, heq', -⟩ | ⟨cause, heq, heq'⟩ | ⟨-, heq, heq'⟩
  · rw [heq, heq']
    exact ⟨h, .refl _, .atom a⟩
  · rw [heq, heq']
    exact fail_done h cause operator
  · rw [heq, heq']
    exact ⟨h, .refl _, rfl⟩

theorem unary_done (operator : Token) {x x' : Value} (hx : c.value m.scopes.next x x') :
    c.Done c.value m (Eval.unary operator x m) (Eval.unary operator x' m') := by
  rcases Eval.unary_cases (rfl : operator.kind = operator.kind) hx.atom? with
    ⟨a, heq, heq', -⟩ | ⟨cause, heq, heq'⟩ | ⟨-, heq, heq'⟩
  · rw [heq, heq']
    exact ⟨h, .refl _, .atom a⟩
  · rw [heq, heq']
    exact fail_done h cause operator
  · rw [heq, heq']
    exact ⟨h, .refl _, rfl⟩

theorem print_done (line : String) :
    c.Done (fun _ _ _ ↦ True) m (Eval.print line m) (Eval.print line m') :=
  ⟨h.withConsole (c.print line h.console), ⟨.refl _, rfl⟩, trivial⟩

/-- Functions made on both machines correspond: their numbers and scopes do. -/
theorem makeClosure_done (name : Token) (params : List Token) (body : List Stmt) :
    c.Done c.value m (Eval.makeClosure name params body m)
      (Eval.makeClosure name params body m') := by
  refine ⟨⟨h.scopes, h.globals, h.current, h.frames, ?_, h.readings, h.console⟩, ⟨.refl _, rfl⟩, ?_⟩
  · change m'.functions + 1 = m.functions + 1 + c.functions
    rw [h.functions]
    omega
  · change c.value m.scopes.next _ (.closure ⟨m'.functions, _, _, _, m'.current⟩)
    rw [h.functions]
    exact .closure h.current

theorem checkArity_done (arity : Nat) {vs vs' : List Value} (hvs : c.values m.scopes.next vs vs')
    (paren : Token) :
    c.Done (fun _ _ _ ↦ True) m (Eval.checkArity arity vs paren m)
      (Eval.checkArity arity vs' paren m') := by
  unfold Eval.checkArity
  rw [hvs.length_eq]
  split
  · exact ⟨h, .refl _, trivial⟩
  · exact fail_done h _ paren

variable {settings settings' : Settings} (hfits : c.Fits settings settings')
include hfits

/-- Both clocks are read, with the same result. -/
theorem readClock_done :
    c.Done c.value m (Eval.readClock settings m) (Eval.readClock settings' m') := by
  refine ⟨⟨h.scopes, h.globals, h.current, h.frames, h.functions, ?_, h.console⟩, ⟨.refl _, rfl⟩, ?_⟩
  · change m'.readings + 1 = m.readings + 1 + c.readings
    rw [h.readings]
    omega
  · change c.value m.scopes.next _ (.atom (.number (settings'.clock m'.readings)))
    rw [h.readings, hfits.clock]
    exact .atom _

/-- As many calls are in progress on the one machine as on the other, and as many are allowed. -/
theorem checkRoom_done (paren : Token) :
    c.Done (fun _ _ _ ↦ True) m (Eval.checkRoom settings paren m)
      (Eval.checkRoom settings' paren m') := by
  unfold Eval.checkRoom
  rw [hfits.calls, h.frames]
  split
  · exact ⟨h, .refl _, rfl⟩
  · exact ⟨h, .refl _, trivial⟩

/-- What is reported about a step may be reported on one machine only. -/
theorem reported_coupled (line : String) :
    c.Coupled (m.reported settings line) (m'.reported settings' line) :=
  h.withConsole (hfits.trace line h.console)

theorem traceCall_done (name : String) {vs vs' : List Value}
    (hvs : c.values m.scopes.next vs vs') :
    c.Done (fun _ _ _ ↦ True) m (Eval.traceCall settings name vs m)
      (Eval.traceCall settings' name vs' m') := by
  have hsources : vs'.map Value.source = vs.map Value.source := by
    induction hvs with
    | nil => rfl
    | cons hv _ ih => rw [List.map_cons, List.map_cons, hv.source, ih]
  unfold Eval.traceCall
  rw [hsources, Eval.traceStep_eq, Eval.traceStep_eq]
  exact ⟨reported_coupled h hfits _, ⟨.refl _, rfl⟩, trivial⟩

/-- What is reported of a statement does not tell the machines apart. -/
theorem traceStmt_done (s : Stmt) :
    c.Done (fun _ _ _ ↦ True) m (Eval.traceStmt settings s m)
      (Eval.traceStmt settings' s m') := by
  obtain ⟨line, hline⟩ := Eval.traceStmt_eq s
  rw [hline, hline]
  exact ⟨reported_coupled h hfits line, ⟨.refl _, rfl⟩, trivial⟩

end

/-! ## Recorded operations and contexts -/

section

variable {settings settings' : Settings} {record : Record} {m' : Machine}

theorem Joins.congr {other : Record} (h : c.Joins record m')
    (hmachine : other.machine = record.machine) (hpassed : other.passed = record.passed) :
    c.Joins other m' := by
  obtain ⟨hcoupled, hjoined, hgrown, hordered⟩ := h
  rw [← hmachine, ← hpassed] at *
  exact ⟨hcoupled, hjoined, hgrown, hordered⟩

theorem Joins.noted (h : c.Joins record m') : c.Joins record.noted m' :=
  h.reach h.coupled (.refl _)

/-- The machines change, and that is not noted. -/
theorem Joins.moved {m m'' : Machine} (h : c.Joins record m')
    (hscopes : m.scopes = record.machine.scopes) (hcoupled : c.Coupled m m'') :
    c.Joins { record with machine := m } m'' where
  coupled := hcoupled
  passed := h.passed
  grown := by
    change ∀ earlier ∈ record.passed, earlier.scopes.Grows m.scopes
    rw [hscopes]
    exact h.grown
  ordered := h.ordered

/-- A single operation is recorded at its end. -/
theorem Joins.once_at (h : c.Joins record m') {p q : Eval α} {mode : Unit}
    (hdone : c.Done good record.machine (p record.machine) (q m')) :
    (c.correspondence settings settings').At mode record m'
      (fun after _ ↦ good after.machine.scopes.next) (Host.perform p) (Host.perform q) := by
  refine .inr ?_
  change (c.correspondence settings settings').Ends mode record m' _ (Course.once p record) (q m')
  unfold Course.once
  cases hp : p record.machine <;> cases hq : q m' <;> rw [hp, hq] at hdone
  · exact ⟨h.reach hdone.1 hdone.2.1.scopes, hdone.2.1, hdone.2.2⟩
  · exact hdone
  · exact hdone
  · rename_i halt m halt' m''
    have hjoins : c.Joins (record.reach m) m'' := h.reach hdone.1 hdone.2.1.scopes
    cases halt with
    | failed => exact ⟨hjoins.congr rfl rfl, hdone.2⟩
    | returned | faulted | exhausted | unfinished => exact ⟨hjoins, hdone.2⟩

theorem job_surrounds (h : c.Joins record m') (mode : Unit) (job job' : Job)
    (good : Nat → α → α → Prop) :
    (c.correspondence settings settings').Surrounds mode mode (.job job) (.job job') record m'
      (fun after _ ↦ good after.machine.scopes.next) where
  valid := h.noted.congr rfl rfl
  carries _ _ hv := hv
  quits hquits := ⟨_, _, rfl, hquits⟩
  leave {r r'} hends := by
    cases r <;> cases r'
    · exact ⟨hends.1.noted.congr rfl rfl, hends.2⟩
    · exact hends
    · exact hends
    · exact ⟨hends.1.noted.congr rfl rfl, hends.2⟩

theorem Coupled.withCurrent {m m' : Machine} (h : c.Coupled m m') {id id' : ScopeId}
    (hid : c.scope m.scopes.next id id') :
    c.Coupled { m with current := id } { m' with current := id' } :=
  ⟨h.scopes, h.globals, hid, h.frames, h.functions, h.readings, h.console⟩

theorem Coupled.withFrames {m m' : Machine} (h : c.Coupled m m') (f : Array Frame → Array Frame) :
    c.Coupled { m with frames := f m.frames } { m' with frames := f m'.frames } :=
  ⟨h.scopes, h.globals, h.current, congrArg f h.frames, h.functions, h.readings, h.console⟩

/-- Scopes that correspond are opened, and left again at the end. -/
theorem scope_surrounds (h : c.Joins record m') (mode : Unit) {enclosing enclosing' : Option ScopeId}
    (henclosing : c.scope record.machine.scopes.next (enclosing.getD record.machine.current)
      (enclosing'.getD m'.current)) (good : Nat → α → α → Prop) :
    (c.correspondence settings settings').Surrounds mode mode (.scope enclosing)
      (.scope enclosing') record m' (fun after _ ↦ good after.machine.scopes.next) := by
  have hgrows := record.machine.scopes.grows_push (enclosing.getD record.machine.current)
  have hopened := h.coupled.withScopes (c.push h.coupled.scopes henclosing) hgrows
  have hinner : c.scope (record.machine.scopes.push (enclosing.getD record.machine.current)).next
      record.machine.scopes.next m'.scopes.next := by
    rw [Scopes.next_push]
    exact c.opened h.coupled.scopes
  have hentered := (h.reach hopened hgrows).reach (hopened.withCurrent hinner) (.refl _)
  -- The scope that was current before is entered again, and by now there may be more scopes.
  have hleft {after : Record} {after' : Machine} (hafter : c.Joins after after')
      (hlater : (Host.enter (.scope enclosing) record).machine.Persists after.machine) :
      c.Joins (after.reach { after.machine with current := record.machine.current })
          { after' with current := m'.current } ∧
        record.machine.Persists { after.machine with current := record.machine.current } := by
    have hgrows' := hgrows.trans hlater.scopes
    have hcurrent := c.scope_mono hgrows'.next h.coupled.current
    exact ⟨hafter.reach (hafter.coupled.withCurrent hcurrent) (.refl _), hgrows', hlater.frames⟩
  refine ⟨hentered, fun _ _ hv ↦ value_mono hgrows.next hv, fun hquits ↦ ⟨_, _, rfl, hquits⟩,
    fun {r r'} hends ↦ ?_⟩
  cases r <;> cases r'
  · obtain ⟨hjoins, hpersists⟩ := hleft hends.1 hends.2.1
    exact ⟨hjoins, hpersists, hends.2.2⟩
  · exact hends
  · exact hends
  · obtain ⟨hjoins, hpersists⟩ := hleft hends.1 hends.2.1
    exact ⟨hjoins, hpersists, hends.2.2⟩

theorem located_halts (frames : Array Frame) {count : Nat} {halt halt' : Halt}
    (h : c.halts count halt halt') :
    c.halts count (Eval.located frames halt) (Eval.located frames halt') := by
  cases halt with
  | returned v =>
    cases halt' with
    | returned v' => exact h
    | failed | faulted | exhausted | unfinished => cases h
  | failed | faulted | exhausted | unfinished =>
    cases h
    rfl

/-- A call is made on both machines, and over at the end. -/
theorem call_surrounds (h : c.Joins record m') (mode : Unit) (frame : Frame)
    (good : Nat → α → α → Prop) :
    (c.correspondence settings settings').Surrounds mode mode (.call frame) (.call frame) record m'
      (fun after _ ↦ good after.machine.scopes.next) := by
  have hentered := h.coupled.withFrames (·.push frame)
  have hpop {after : Record} {after' : Machine} (hafter : c.Joins after after') :=
    hafter.moved (m := { after.machine with frames := after.machine.frames.pop }) rfl
      (hafter.coupled.withFrames Array.pop)
  have hpersists {after : Record}
      (hlater : (Host.enter (.call frame) record).machine.Persists after.machine) :
      record.machine.Persists (after.machine.left (.call frame) record.machine.current) :=
    ⟨hlater.scopes, Machine.left_frames hlater.frames _⟩
  -- The second machine has the frames of the first one, so it too has those it was entered with.
  have hframes' {after : Record} {after' : Machine} (hafter : c.Joins after after')
      (hlater : (Host.enter (.call frame) record).machine.Persists after.machine) :
      after'.frames = (Host.enter (.call frame) m').frames :=
    (hafter.coupled.frames.trans hlater.frames).trans hentered.frames.symm
  refine ⟨h.moved rfl hentered, fun _ _ hv ↦ hv, fun {halt after} hquits ↦ ?_,
    fun {r r'} hends ↦ ?_⟩
  · obtain ⟨htraced, rfl, hframes⟩ := hquits
    refine ⟨_, { after with machine := after.machine.left (.call frame) record.machine.current },
      ?_, htraced, rfl, Machine.left_frames hframes record.machine.current⟩
    change Course.resume after
      (Host.leave (.call frame) record.machine.current (.error .exhausted after.machine)) = _
    rw [Machine.leave_error hframes]
    rfl
  · cases r <;> cases r'
    · rename_i a after b after'
      change (c.correspondence settings settings').Ends mode record m' _
        (Course.resume after (Host.leave (.call frame) record.machine.current (.ok a after.machine)))
        (Host.leave (.call frame) m'.current (.ok b after'))
      rw [Machine.leave_ok hends.2.1.frames, Machine.leave_ok (hframes' hends.1 hends.2.1)]
      exact ⟨hpop hends.1, hpersists hends.2.1, hends.2.2⟩
    · exact False.elim hends
    · exact False.elim hends
    · rename_i halt after halt' after'
      change (c.correspondence settings settings').Ends mode record m' _
        (Course.resume after
          (Host.leave (.call frame) record.machine.current (.error halt after.machine)))
        (Host.leave (.call frame) m'.current (.error halt' after'))
      rw [Machine.leave_error hends.2.1.frames, Machine.leave_error (hframes' hends.1 hends.2.1)]
      refine ⟨hpop hends.1, hpersists hends.2.1, ?_⟩
      change c.halts _ (Eval.located after.machine.frames halt) (Eval.located after'.frames halt')
      rw [hends.1.coupled.frames]
      exact located_halts _ hends.2.2

end

/-! ## Executions -/

section

variable {settings settings' : Settings} {record : Record} {m' : Machine}

/-- An expression corresponds to itself, part by part. -/
theorem expr_step (e : Expr) : (c.correspondence settings settings').ExprStep e e := by
  cases e with
  | literal a => exact .literal fun _ _ _ ↦ .atom a
  | var name => exact .var fun _ _ h ↦ h.once_at (lookup_done h.coupled name)
  | assign name value =>
    exact .assign (fun _ _ _ _ h hv ↦ h.once_at (assign_done h.coupled name hv)) rfl
  | unary operator operand =>
    exact .unary (fun _ _ _ _ h hx ↦ h.once_at (unary_done h.coupled operator hx)) rfl
  | binary operator left right =>
    exact .binary (fun _ _ _ _ _ _ h hx hy ↦ h.once_at (binary_done h.coupled operator hx hy)) rfl
      rfl
  | logical operator left right => exact .logical rfl rfl rfl
  | call callee paren arguments => exact .call rfl rfl (List.forall₂_same.mpr fun _ _ ↦ rfl)
  | grouping e => exact .grouping rfl
  | void => exact .void fun _ _ h ↦ ⟨h, .refl _, rfl⟩

/-- A statement corresponds to itself, part by part. -/
theorem stmt_step (mode : Unit) (s : Stmt) :
    (c.correspondence settings settings').StmtStep mode s s := by
  have hprint (text : Value → String) (htext : ∀ count v v', c.value count v v' → text v' = text v) :
      (c.correspondence settings settings').RelatesOn mode Correspondence.done
        (fun v ↦ Eval.print (text v)) (fun v ↦ Eval.print (text v)) := by
    intro record m' v v' h hv
    have hdone : c.Done (fun _ _ _ ↦ True) record.machine
        (Eval.print (text v) record.machine) (Eval.print (text v') m') := by
      rw [htext _ v v' hv]
      exact print_done h.coupled (text v)
    exact h.once_at hdone
  have hdefine (name : String) :
      (c.correspondence settings settings').RelatesOn mode Correspondence.done
        (Eval.define name) (Eval.define name) :=
    fun _ _ _ _ h hv ↦ h.once_at (define_done h.coupled name hv)
  have hrel {γ : Type} (x : Option γ) : Option.Rel (fun y y' ↦ y' = y) x x := by
    cases x with
    | none => exact .none
    | some y => exact .some rfl
  cases s with
  | block body => exact .block (List.forall₂_same.mpr fun _ _ ↦ rfl)
  | empty => exact .empty
  | expression value => exact .expression (hprint _ fun _ _ _ ↦ Value.Corresponds.source) rfl
  | function name params body =>
    exact .function (fun _ _ h ↦ h.once_at (makeClosure_done h.coupled name params body))
      (hdefine name.lexeme)
  | branch condition yes no => exact .branch rfl rfl (hrel no)
  | print value => exact .print (hprint _ fun _ _ _ ↦ Value.Corresponds.display) rfl
  | ret keyword value => exact .ret (fun _ _ _ _ h hv ↦ ⟨h, .refl _, hv⟩) (hrel value)
  | declare name initial => exact .declare (hdefine name.lexeme) (hrel initial)
  | loop condition body => exact .loop rfl rfl
  | void => exact .void fun _ _ h ↦ ⟨h, .refl _, rfl⟩

/-- Whether there are levels enough for a text is the same on both machines, unless steps are
reported on the first one only. -/
theorem checkText_at (h : c.Joins record m') (hfits : c.Fits settings settings') (mode : Unit)
    (levels : Nat) (s : Stmt) :
    (c.correspondence settings settings').At mode record m' Correspondence.done
      (Eval.checkText settings levels s) (Eval.checkText settings' levels s) := by
  by_cases htraced : settings'.traced = settings.traced
  · unfold Eval.checkText
    rw [htraced]
    split
    · exact .throw ⟨h, .refl _, rfl⟩
    · exact .inr ⟨h, .refl _, trivial⟩
  · -- Steps are reported on the first machine only, which quits where the text is too deep.
    have huntraced := hfits.traced.resolve_left htraced
    unfold Eval.checkText
    split
    · exact .inl ⟨_, _, rfl, htraced, rfl, rfl⟩
    · rw [huntraced]
      exact .inr ⟨h, .refl _, trivial⟩

/-- Executions on coupled machines take the same course. -/
theorem congruence (hfits : c.Fits settings settings') :
    (c.correspondence settings settings').Congruence where
  levels := hfits.levels
  refl _ := .refl _
  trans := .trans
  stops_trans h h' := ⟨h'.1, h.trans h'.2.1, h'.2.2⟩
  quits_trans h h' := ⟨h'.1, h'.2.1, h'.2.2.trans h.frames⟩
  keeps_lift _ h := h
  stops_lift _ h := h
  quits_lift _ h := h
  carries h _ _ hv := value_mono h.scopes.next hv
  calls_keeps _ _ := trivial
  roomy_keeps _ _ := trivial
  unfinished h := ⟨h, .refl _, rfl⟩
  exhausted h := ⟨h, .refl _, rfl⟩
  truthy hv := hv.truthy
  callable? hv := hv.callable?
  value_step hv := by
    cases hv with
    | atom a => exact .atom a a
    | native f => exact .native f
    | closure => exact .closure rfl (List.forall₂_same.mpr fun _ _ ↦ rfl)
  expr_step := by
    rintro e _ rfl
    exact expr_step _
  stmt_step := by
    rintro mode s _ rfl
    exact stmt_step mode _
  during_expr _ h := job_surrounds h _ _ _ c.value
  during_stmt _ h := job_surrounds h _ _ _ fun _ _ _ ↦ True
  during_call h _ _ _ := ⟨job_surrounds h _ _ _ c.value, trivial⟩
  during_apply h _ _ := job_surrounds h _ _ _ c.value
  inFrame := by
    rintro f name arity paren _ vs record m' h - - rfl -
    exact call_surrounds h _ _ c.value
  inBody h hf := by
    cases hf with
    | @closure f id hscope =>
      refine scope_surrounds h _ ?_ c.value
      exact hscope
  inBlock _ h := by
    refine scope_surrounds h _ ?_ fun _ _ _ ↦ True
    exact h.coupled.current
  notCallable := by
    rintro _ paren rfl record m' h
    have hdone : c.Done c.value record.machine (Eval.fail .notCallable paren record.machine)
      (Eval.fail .notCallable paren m') := fail_done h.coupled .notCallable paren
    exact h.once_at hdone
  checkArity := by
    rintro record m' f name arity vs vs' paren _ h hvs rfl -
    exact h.once_at (checkArity_done h.coupled arity hvs _)
  checkRoom := by
    rintro paren _ rfl record m' h
    exact h.once_at (checkRoom_done h.coupled hfits _)
  traceCall name h hvs := h.once_at (traceCall_done h.coupled hfits name hvs)
  bindParam name _ _ _ _ h hv := h.once_at (define_done h.coupled name hv)
  keeps_body h := h
  stops_body := by
    rintro record m' halt after halt' after' - ⟨hjoins, hgrows, hhalts⟩
    cases halt with
    | returned v =>
      cases halt' with
      | returned v' => exact .inl ⟨v, v', rfl, rfl, hjoins, hgrows, hhalts⟩
      | failed | faulted | exhausted | unfinished => cases hhalts
    | failed | faulted | exhausted | unfinished =>
      cases hhalts
      refine .inr ⟨?_, ?_, hjoins, hgrows, rfl⟩
      all_goals
        intro v hv
        cases hv
  quits_body := by
    rintro record _ after ⟨htraced, rfl, hframes⟩
    exact ⟨nofun, htraced, rfl, hframes⟩
  nil _ := .atom .nil
  readClock _ _ h := h.once_at (readClock_done h.coupled hfits)
  surplusArguments h _ := ⟨h, .refl _, rfl⟩
  notFunction h _ := ⟨h, .refl _, rfl⟩
  checkText := by
    rintro mode s _ levels rfl record m' h
    exact checkText_at h hfits mode _ _
  traceStmt := by
    rintro mode s _ rfl record m' h
    exact h.once_at (traceStmt_done h.coupled hfits _)

end

/-! ## How executions end -/

section

variable {settings settings' : Settings} {record : Record} {m' : Machine} {mode : Unit}
  {p : Course α} {q : Eval α}

/-- What is shown of courses holds of executions, with the records left out. -/
theorem done_of_ends (good : Nat → α → α → Prop) {result : EStateM.Result Halt Record α}
    {result' : EStateM.Result Halt Machine α}
    (h : (c.correspondence settings settings').Ends mode record m'
      (fun after _ ↦ good after.machine.scopes.next) result result') :
    c.Done good record.machine (Course.ended result) result' := by
  cases result <;> cases result'
  · exact ⟨h.1.coupled, h.2⟩
  · exact h
  · exact h
  · exact ⟨h.1.coupled, h.2⟩

theorem exhausted_or_done (good : Nat → α → α → Prop)
    (h : (c.correspondence settings settings').At mode record m'
      (fun after _ ↦ good after.machine.scopes.next) p q) :
    (∃ after, Course.ended (p record) = .error .exhausted after) ∨
      c.Done good record.machine (Course.ended (p record)) (q m') := by
  rcases h with ⟨_, after, hp, -, rfl, -⟩ | h
  · exact .inl ⟨after.machine, congrArg Course.ended hp⟩
  · exact .inr (done_of_ends good h)

variable (htraced : settings'.traced = settings.traced)
include htraced

/-- Where steps are reported on both machines or on neither, executions end alike. -/
theorem ends_of_at {good : Record → Machine → α → α → Prop}
    (h : (c.correspondence settings settings').At mode record m' good p q) :
    (c.correspondence settings settings').Ends mode record m' good (p record) (q m') := by
  rcases h with ⟨_, _, -, hne, -⟩ | h
  · exact absurd htraced hne
  · exact h

/-- Executions that end alike leave coupled machines. -/
theorem joins_of_at {good : Record → Machine → α → α → Prop}
    (h : (c.correspondence settings settings').At mode record m' good p q) :
    c.Joins (final (p record)) (final (q m')) := by
  have hends := ends_of_at htraced h
  cases hp : p record <;> cases hq : q m' <;> rw [hp, hq] at hends
  · exact hends.1
  · exact hends.elim
  · exact hends.elim
  · exact hends.1

theorem done_of_at (good : Nat → α → α → Prop)
    (h : (c.correspondence settings settings').At mode record m'
      (fun after _ ↦ good after.machine.scopes.next) p q) :
    c.Done good record.machine (Course.ended (p record)) (q m') :=
  done_of_ends good (ends_of_at htraced h)

omit htraced

/-- A program is executed alike on machines that are coupled. -/
theorem program_at (hfits : c.Fits settings settings') (steps : Nat) (echo : Bool)
    (statements : List Stmt) (h : c.Joins record m') :
    (c.correspondence settings settings').At () record m' Correspondence.done
      (Course.program settings steps echo statements)
      (Eval.program settings' steps echo statements) :=
  (congruence hfits).program_relates steps echo (List.forall₂_same.mpr fun _ _ ↦ rfl) record m' h

/-- A function found by name is applied alike on machines that are coupled. -/
theorem applied_at (hfits : c.Fits settings settings') (steps : Nat) (name : Token)
    {arguments arguments' : List Value} (h : c.Joins record m')
    (harguments : c.values record.machine.scopes.next arguments arguments') :
    (c.correspondence settings settings').At () record m'
      (fun after _ ↦ c.value after.machine.scopes.next)
      (Course.applied settings steps name arguments)
      (Eval.lookup name >>= fun f ↦ Eval.apply settings' steps settings'.levels f arguments') := by
  have hcongruence := congruence hfits
  rw [hfits.levels]
  refine hcongruence.bind (h.once_at (lookup_done h.coupled name)) fun after after' f f' hjoins hkeeps
    hf ↦ ?_
  exact (hcongruence.relatesFor steps).apply settings.levels after after' f f' arguments arguments'
    hjoins hf (values_mono hkeeps.scopes.next harguments) trivial

end

/-! ## Machines that are the same but for the console -/

/-- What two consoles have in common, whatever is printed on both. -/
structure Likeness where
  holds : Console → Console → Prop
  print : ∀ {a a' : Console} (line : String), holds a a' → holds (a.print line) (a'.print line)

/-- Everything corresponds to itself alone, except for the consoles. -/
def alongside (likeness : Likeness) : Coupling where
  functions := 0
  readings := 0
  globals id id' := id' = id
  console := likeness.holds
  scope _ id id' := id' = id
  scopes s s' := s' = s
  print := likeness.print
  scope_mono _ h := h
  opened := by
    rintro s _ rfl
    rfl
  push := by
    rintro s _ id _ rfl rfl
    rfl
  define := by
    rintro s _ id _ v v' name rfl rfl hv
    rw [hv.eq]
  resolve := by
    rintro _ s _ id name rfl rfl
    cases s.resolve? id name with
    | none => exact .none
    | some found =>
      refine .some ⟨.refl fun _ _ ↦ rfl, fun v v' hv ↦ ?_⟩
      rw [hv.eq]

section

variable {likeness : Likeness}

/-- Coupled alongside, machines differ in their consoles only. -/
theorem Coupled.eq_withConsole {m m' : Machine} (h : (alongside likeness).Coupled m m') :
    m' = { m with console := m'.console } := by
  obtain ⟨hscopes, hglobals, hcurrent, hframes, hfunctions, hreadings, -⟩ := h
  cases m
  cases m'
  simp only [alongside, Nat.add_zero] at *
  subst hscopes hglobals hcurrent hframes hfunctions hreadings
  rfl

theorem alongside_coupled (m : Machine) {console : Console} (h : likeness.holds m.console console) :
    (alongside likeness).Coupled m { m with console } :=
  ⟨rfl, rfl, rfl, rfl, rfl, rfl, h⟩

theorem halts_eq {count : Nat} {halt halt' : Halt}
    (h : (alongside likeness).halts count halt halt') : halt' = halt := by
  cases halt with
  | returned v =>
    cases halt' with
    | returned v' => rw [Value.Corresponds.eq h]
    | failed | faulted | exhausted | unfinished => cases h
  | failed | faulted | exhausted | unfinished => exact h.symm

end

/-! ## A machine beside itself -/

variable {settings settings' : Settings}

abbrev identity : Coupling :=
  alongside ⟨fun console console' ↦ console' = console, print_eq⟩

theorem identity_fits (settings : Settings) : identity.Fits settings settings :=
  fits_of_console_eq rfl (fun _ _ ↦ .rfl) settings

theorem Coupled.eq {m m' : Machine} (h : identity.Coupled m m') : m' = m := by
  rw [h.eq_withConsole, h.console]

theorem identity_coupled (m : Machine) : identity.Coupled m m :=
  alongside_coupled m rfl

/-- Recording an execution does not change how it ends. -/
theorem ended_eq (good : Nat → α → α → Prop) {settings : Settings} {mode : Unit} {p : Course α}
    {q : Eval α} {m : Machine}
    (h : (identity.correspondence settings settings).At mode (.start m) m
      (fun after _ ↦ good after.machine.scopes.next) p q)
    (hgood : ∀ count a b, good count a b → b = a) : Course.ended (p (.start m)) = q m := by
  have hdone := done_of_at rfl good h
  cases hp : Course.ended (p (.start m)) <;> cases hq : q m <;> rw [hp, hq] at hdone
  · rw [hdone.1.eq, hgood _ _ _ hdone.2.2]
  · exact hdone.elim
  · exact hdone.elim
  · rw [hdone.1.eq, halts_eq hdone.2.2]

/-- A course of a program ends as its execution on a plain machine does. -/
theorem program_ended (settings : Settings) (steps : Nat) (echo : Bool) (statements : List Stmt)
    (m : Machine) :
    Course.ended (Course.program settings steps echo statements (.start m)) =
      Eval.program settings steps echo statements m :=
  ended_eq (fun _ _ _ ↦ True)
    (program_at (identity_fits settings) steps echo statements (identity_coupled m).start)
    fun _ _ _ _ ↦ rfl

/-- Likewise for an expression. -/
theorem expr_ended (settings : Settings) (steps levels : Nat) (e : Expr) (m : Machine) :
    Course.ended (Eval.expr settings steps levels e (Record.start m)) =
      Eval.expr settings steps levels e m :=
  ended_eq identity.value
    (((congruence (identity_fits settings)).relatesFor steps).expr levels e e rfl _ _
      (identity_coupled m).start)
    fun _ _ _ hv ↦ hv.eq

theorem stmts_at (hfits : c.Fits settings settings') (steps levels : Nat) (body : List Stmt)
    {record : Record} {m' : Machine} (h : c.Joins record m') :
    (c.correspondence settings settings').At () record m' Correspondence.done
      (Eval.stmts settings steps levels body) (Eval.stmts settings' steps levels body) :=
  ((congruence hfits).relatesFor steps).stmts levels () body body
    (List.forall₂_same.mpr fun _ _ ↦ rfl) record m' h

theorem stmts_ended (settings : Settings) (steps levels : Nat) (body : List Stmt) (m : Machine) :
    Course.ended (Eval.stmts settings steps levels body (Record.start m)) =
      Eval.stmts settings steps levels body m :=
  ended_eq (fun _ _ _ ↦ True)
    (stmts_at (identity_fits settings) steps levels body (identity_coupled m).start)
    fun _ _ _ _ ↦ rfl

/-- Likewise for a function that is found by its name. -/
theorem applied_ended (settings : Settings) (steps : Nat) (name : Token) (arguments : List Value)
    (m : Machine) :
    Course.ended (Course.applied settings steps name arguments (.start m)) =
      (Eval.lookup name >>= fun f ↦ Eval.apply settings steps settings.levels f arguments) m := by
  have harguments : identity.values m.scopes.next arguments arguments :=
    List.forall₂_same.mpr fun _ _ ↦ .refl fun _ _ ↦ rfl
  exact ended_eq identity.value
    (applied_at (identity_fits settings) steps name (identity_coupled m).start harguments)
    fun _ _ _ hv ↦ hv.eq

/-! ## Statements on coupled machines -/

/-- However executions end, the machines they leave are coupled. -/
theorem Done.coupled {before : Machine} {result result' : EStateM.Result Halt Machine α}
    (h : c.Done good before result result') : c.Coupled (final result) (final result') := by
  cases result <;> cases result'
  · exact h.1
  · exact h.elim
  · exact h.elim
  · exact h.1

/-- A program ends alike on coupled machines, unless there are not levels enough for a report. -/
theorem program_exhausted_or_done (hfits : c.Fits settings settings') (steps : Nat) (echo : Bool)
    (statements : List Stmt) {m m' : Machine} (h : c.Coupled m m') :
    (∃ after, Eval.program settings steps echo statements m = .error .exhausted after) ∨
      c.Done (fun _ _ _ ↦ True) m (Eval.program settings steps echo statements m)
        (Eval.program settings' steps echo statements m') := by
  rw [← program_ended]
  exact exhausted_or_done (fun _ _ _ ↦ True) (program_at hfits steps echo statements h.start)

/-- Where steps are reported on both machines or on neither, it ends alike. -/
theorem program_done (hfits : c.Fits settings settings')
    (htraced : settings'.traced = settings.traced) (steps : Nat) (echo : Bool)
    (statements : List Stmt) {m m' : Machine} (h : c.Coupled m m') :
    c.Done (fun _ _ _ ↦ True) m (Eval.program settings steps echo statements m)
      (Eval.program settings' steps echo statements m') := by
  rw [← program_ended]
  exact done_of_at htraced (fun _ _ _ ↦ True) (program_at hfits steps echo statements h.start)

theorem stmts_done (hfits : c.Fits settings settings')
    (htraced : settings'.traced = settings.traced) (steps levels : Nat) (body : List Stmt)
    {m m' : Machine} (h : c.Coupled m m') :
    c.Done (fun _ _ _ ↦ True) m (Eval.stmts settings steps levels body m)
      (Eval.stmts settings' steps levels body m') := by
  rw [← stmts_ended]
  exact done_of_at htraced (fun _ _ _ ↦ True) (stmts_at hfits steps levels body h.start)

end Coupling

end Lox
