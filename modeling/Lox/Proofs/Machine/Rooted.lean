import Lox.Proofs.Machine.Coupling

/-!
# Scopes rooted at the globals

Scopes hold functions and functions lie in scopes, so that what refers to what can go in circles.
The way outward from a scope does not: it goes from one scope to another that was opened earlier.
All scopes that a program can still get at were opened since the globals were, and the way outward
from each of them ends at the globals.
-/

namespace Lox

open Stateful

/-! ## The way outward -/

namespace Scopes

/-- The way outward from a scope passes the scopes in `path` and ends at `root`. -/
inductive Leads (scopes : Scopes) (root : ScopeId) : ScopeId → List ScopeId → Prop
  | outermost (hroot : root < scopes.next) (h : scopes.enclosing? root = none) :
      Leads scopes root root [root]
  | outward {id outer : ScopeId} {path : List ScopeId} (houter : scopes.enclosing? id = some outer)
      (h : Leads scopes root outer path) : Leads scopes root id (id :: path)

theorem lt_next_of_enclosing? {scopes : Scopes} {id outer : ScopeId}
    (h : scopes.enclosing? id = some outer) : id < scopes.next := by
  by_contra hid
  rw [enclosing?, Array.getElem?_eq_none (Nat.le_of_not_lt hid)] at h
  cases h

theorem chainFrom_succ (scopes : Scopes) (count : Nat) {id : ScopeId} (h : id < scopes.next) :
    scopes.chainFrom (count + 1) id =
      id :: (scopes.enclosing? id).elim [] (scopes.chainFrom count) := by
  unfold chainFrom enclosing?
  rw [Array.getElem?_eq_getElem h]
  dsimp only [Option.bind_some]
  cases (scopes.all[id]).enclosing <;> rfl

namespace Leads

variable {scopes : Scopes} {root id : ScopeId} {path : List ScopeId}

/-- A bound on the number of scopes makes no difference as long as the way is not longer. -/
theorem chainFrom_eq (h : scopes.Leads root id path) {count : Nat} (hcount : path.length ≤ count) :
    scopes.chainFrom count id = path := by
  induction h generalizing count with
  | outermost hroot houter =>
    cases count with
    | zero => cases hcount
    | succ count =>
      rw [chainFrom_succ scopes count hroot, houter]
      rfl
  | @outward id outer path houter h ih =>
    cases count with
    | zero => cases hcount
    | succ count =>
      rw [chainFrom_succ scopes count (lt_next_of_enclosing? houter), houter, Option.elim_some,
        ih (Nat.le_of_succ_le_succ hcount)]

/-- The first scope on the way that declares a name is found. -/
theorem search_eq (h : scopes.Leads root id path) (name : String) {count : Nat}
    (hcount : path.length ≤ count) :
    scopes.search name count id =
      path.findSome? fun id ↦ (scopes.held? id name).map (id, ·) := by
  induction h generalizing count with
  | outermost hroot houter =>
    cases count with
    | zero => cases hcount
    | succ count =>
      rw [search_succ, houter, List.findSome?_singleton, Option.bind_none, Option.or_none]
  | @outward id outer path houter h ih =>
    cases count with
    | zero => cases hcount
    | succ count =>
      rw [search_succ, houter, Option.bind_some, ih (Nat.le_of_succ_le_succ hcount),
        List.findSome?_cons]
      cases scopes.held? id name <;> rfl

/-- Outward, the numbers of the scopes go down. -/
theorem pairwise (hnested : scopes.Nested) (h : scopes.Leads root id path) :
    path.Pairwise (· > ·) ∧ ∀ other ∈ path, other ≤ id := by
  induction h with
  | outermost hroot houter => simp
  | @outward id outer path houter h ih =>
    have hlt : outer < id := hnested id outer houter
    have hbelow : ∀ other ∈ path, other < id := fun other hother ↦
      Nat.lt_of_le_of_lt (ih.2 other hother) hlt
    exact ⟨List.pairwise_cons.mpr ⟨hbelow, ih.1⟩, List.forall_mem_cons.mpr
      ⟨Nat.le_refl _, fun other hother ↦ Nat.le_of_lt (hbelow other hother)⟩⟩

/-- The way outward goes to scopes with smaller numbers, so it is no longer than the number tells.
-/
theorem length_le (hnested : scopes.Nested) (h : scopes.Leads root id path) :
    path.length ≤ id + 1 := by
  induction h with
  | outermost hroot houter => exact Nat.le_add_left 1 root
  | @outward id outer path houter h ih =>
    exact Nat.succ_le_succ (Nat.le_trans ih (hnested id outer houter))

/-- A name declared in the root is found there if no other scope on the way declares it. -/
theorem findSome?_eq (h : scopes.Leads root id path) {name : String} {value : Value}
    (hvalue : scopes.held? root name = some value)
    (hothers : ∀ inner ∈ path, inner ≠ root → scopes.held? inner name = none) :
    (path.findSome? fun id ↦ (scopes.held? id name).map (id, ·)) = some (root, value) := by
  induction h with
  | outermost hroot houter => rw [List.findSome?_singleton, hvalue, Option.map_some]
  | @outward id outer path houter h ih =>
    rw [List.findSome?_cons]
    by_cases hid : id = root
    · rw [hid, hvalue, Option.map_some]
    · rw [hothers id List.mem_cons_self hid, Option.map_none]
      exact ih fun inner hinner ↦ hothers inner (List.mem_cons_of_mem id hinner)

end Leads

/-! ## Stores rooted at a scope -/

/-- Among the scopes opened since `root`, it alone is outermost, and the functions they hold lie in
such scopes. -/
structure Rooted (root : ScopeId) (scopes : Scopes) : Prop where
  nested : scopes.Nested
  opened : root < scopes.next
  outermost : scopes.enclosing? root = none
  enclosed : ∀ id, root < id → id < scopes.next →
    ∃ outer, scopes.enclosing? id = some outer ∧ root ≤ outer
  closures : ∀ id name f, root ≤ id → scopes.held? id name = some (.closure f) →
    root ≤ f.scope ∧ f.scope < scopes.next

namespace Rooted

variable {root : ScopeId} {scopes : Scopes} (h : scopes.Rooted root)
include h

/-- From each of the scopes opened since the root, the way outward ends there. -/
theorem leads {id : ScopeId} (hroot : root ≤ id) (hid : id < scopes.next) :
    ∃ path, scopes.Leads root id path := by
  induction id using Nat.strongRecOn with
  | ind id ih =>
    rcases Nat.eq_or_lt_of_le hroot with rfl | hlt
    · exact ⟨_, .outermost hid h.outermost⟩
    · obtain ⟨outer, houter, hbelow⟩ := h.enclosed id hlt hid
      have hsmaller : outer < id := h.nested id outer houter
      obtain ⟨path, hpath⟩ := ih outer hsmaller hbelow (Nat.lt_trans hsmaller hid)
      exact ⟨_, .outward houter hpath⟩

/-- A scope opened inside another since the root is not outermost. -/
theorem push {outer : ScopeId} (houter : root ≤ outer) (hlt : outer < scopes.next) :
    (scopes.push (some outer)).Rooted root where
  nested := h.nested.push fun _ hmem ↦ Option.some.inj hmem ▸ hlt
  opened := Nat.lt_of_lt_of_le h.opened (scopes.grows_push _).next
  outermost := by
    rw [enclosing?_push, if_neg (Nat.ne_of_lt (Nat.lt_of_le_of_lt houter hlt))]
    exact h.outermost
  enclosed id hroot hid := by
    rw [enclosing?_push]
    rw [next_push] at hid
    split
    · exact ⟨outer, rfl, houter⟩
    · rename_i hne
      exact h.enclosed id hroot (Nat.lt_of_le_of_ne (Nat.le_of_lt_succ hid) hne)
  closures id name f hid hheld := by
    rw [held?_push] at hheld
    have hscope := h.closures id name f hid hheld
    exact ⟨hscope.1, Nat.lt_of_lt_of_le hscope.2 (scopes.grows_push _).next⟩

/-- A function is stored that lies in a scope opened since the root. -/
theorem define (id : ScopeId) (name : String) {value : Value}
    (hvalue : ∀ f, value = .closure f → root ≤ f.scope ∧ f.scope < scopes.next) :
    (scopes.define id name value).Rooted root where
  nested := h.nested.define id name value
  opened := by rw [next_define]; exact h.opened
  outermost := by rw [enclosing?_define, h.outermost]
  enclosed other hroot hother := by
    rw [next_define] at hother
    rw [enclosing?_define]
    exact h.enclosed other hroot hother
  closures other name' f hother hheld := by
    rw [next_define]
    rw [held?_define] at hheld
    split at hheld
    · exact hvalue f (Option.some.inj hheld)
    · exact h.closures other name' f hother hheld

/-- What is found from a scope opened since `root` is held by such a scope. -/
theorem resolve? {id owner : ScopeId} {name : String} {value : Value} (hroot : root ≤ id)
    (hid : id < scopes.next) (hfound : scopes.resolve? id name = some (owner, value)) :
    root ≤ owner ∧ scopes.held? owner name = some value := by
  refine ⟨?_, held?_of_search hfound⟩
  induction id using Nat.strongRecOn with
  | ind id ih =>
    rw [h.nested.resolve?_eq] at hfound
    cases hheld : scopes.held? id name with
    | some held =>
      rw [hheld] at hfound
      cases hfound
      exact hroot
    | none =>
      rw [hheld] at hfound
      obtain ⟨outer, houter, hfound⟩ := Option.bind_eq_some_iff.mp hfound
      have hne : root ≠ id := by
        rintro rfl
        rw [h.outermost] at houter
        cases houter
      obtain ⟨outer', houter', hbelow⟩ := h.enclosed id (Nat.lt_of_le_of_ne hroot hne) hid
      obtain rfl : outer' = outer := Option.some.inj (houter'.symm.trans houter)
      have hlt : outer' < id := h.nested id outer' houter
      exact ih outer' hlt hbelow (Nat.lt_trans hlt hid) hfound

end Rooted

/-- A scope that has not been opened holds nothing. -/
theorem held?_of_le {scopes : Scopes} {id : ScopeId} (h : scopes.next ≤ id) (name : String) :
    scopes.held? id name = none := by
  rw [held?, Array.getElem?_eq_none h]
  rfl

/-- A new outermost scope is a root: there is nothing yet that was opened since. -/
theorem rooted_push_none {scopes : Scopes} (h : scopes.Nested) :
    (scopes.push none).Rooted scopes.next where
  nested := h.push nofun
  opened := by rw [next_push]; exact Nat.lt_succ_self _
  outermost := by rw [enclosing?_push, if_pos rfl]
  enclosed id hroot hid := by
    rw [next_push] at hid
    exact absurd hroot (Nat.not_lt_of_le (Nat.le_of_lt_succ hid))
  closures id name f hid hheld := by
    rw [held?_push, held?_of_le hid] at hheld
    cases hheld

end Scopes

/-! ## Machines -/

namespace Machine

/-- The scopes a machine can still get at: from the current one, outward and into the functions that
are held. -/
inductive Live (m : Machine) : ScopeId → Prop
  | current : Live m m.current
  | outward {id outer : ScopeId} (h : Live m id) (houter : m.scopes.enclosing? id = some outer) :
      Live m outer
  | closure {id : ScopeId} {name : String} {f : Closure} (h : Live m id)
      (hheld : m.scopes.held? id name = some (.closure f)) : Live m f.scope

/-- What can be seen from a scope: the way outward ends at the globals and never comes back to where
it was, names are looked up along it, and a global is visible unless another scope on the way
declares it. -/
structure Sees (m : Machine) (id : ScopeId) (path : List ScopeId) : Prop where
  leads : m.scopes.Leads m.globals id path
  nodup : path.Nodup
  chain : m.scopes.chain id = path
  resolve : ∀ name, m.scopes.resolve? id name =
    path.findSome? fun id ↦ (m.scopes.held? id name).map (id, ·)
  visible : ∀ name value, m.scopes.held? m.globals name = some value →
    (∀ inner ∈ path, inner ≠ m.globals → m.scopes.held? inner name = none) →
    m.scopes.get? id name = some value

structure Rooted (m : Machine) : Prop where
  scopes : m.scopes.Rooted m.globals
  current : m.globals ≤ m.current ∧ m.current < m.scopes.next

namespace Rooted

variable {m : Machine} (h : m.Rooted)
include h

/-- Whatever a machine can get at was opened since the globals. -/
theorem of_live {id : ScopeId} (hlive : m.Live id) : m.globals ≤ id ∧ id < m.scopes.next := by
  induction hlive with
  | current => exact h.current
  | @outward id outer _ houter ih =>
    have hne : m.globals ≠ id := by
      rintro heq
      rw [← heq, h.scopes.outermost] at houter
      cases houter
    obtain ⟨outer', houter', hroot⟩ := h.scopes.enclosed id (Nat.lt_of_le_of_ne ih.1 hne) ih.2
    obtain rfl : outer' = outer := Option.some.inj (houter'.symm.trans houter)
    exact ⟨hroot, Nat.lt_trans (h.scopes.nested id outer' houter) ih.2⟩
  | @closure id name f _ hheld ih => exact h.scopes.closures id name f ih.1 hheld

/-- From every scope that is still in reach, names are looked up along the way to the globals. -/
theorem sees {id : ScopeId} (hlive : m.Live id) : ∃ path, m.Sees id path := by
  obtain ⟨hroot, hid⟩ := h.of_live hlive
  obtain ⟨path, hleads⟩ := h.scopes.leads hroot hid
  have hlength := hleads.length_le h.scopes.nested
  have hdown := (hleads.pairwise h.scopes.nested).1
  have hresolve (name : String) : m.scopes.resolve? id name =
      path.findSome? fun id ↦ (m.scopes.held? id name).map (id, ·) :=
    hleads.search_eq name hlength
  refine ⟨path, hleads, hdown.imp Nat.ne_of_gt, hleads.chainFrom_eq hlength, hresolve, ?_⟩
  intro name value hvalue hunshadowed
  rw [Scopes.get?, hresolve, hleads.findSome?_eq hvalue hunshadowed, Option.map_some]

theorem idle : m.idle.Rooted :=
  ⟨h.scopes, Nat.le_refl _, h.scopes.opened⟩

theorem withConsole (console : Console) : { m with console }.Rooted :=
  ⟨h.scopes, h.current⟩

end Rooted

/-- The functions that a machine provides lie in no scope. -/
theorem rooted_natives {root : ScopeId} {scopes : Scopes} (h : scopes.Rooted root) (id : ScopeId)
    (natives : List Native) :
    (natives.foldl (fun scopes f ↦ scopes.define id f.name (.native f)) scopes).Rooted root := by
  induction natives generalizing scopes with
  | nil => exact h
  | cons f natives ih => exact ih (h.define id f.name nofun)

theorem grows_natives (scopes : Scopes) (id : ScopeId) (natives : List Native) :
    scopes.Grows
      (natives.foldl (fun scopes f ↦ scopes.define id f.name (.native f)) scopes) := by
  induction natives generalizing scopes with
  | nil => exact .refl scopes
  | cons f natives ih => exact (scopes.grows_define id f.name (.native f)).trans (ih _)

/-- Renewed, a machine has nothing but its globals in use. -/
theorem renewed_rooted {m : Machine} (h : m.scopes.Nested) : m.renewed.Rooted := by
  have hrooted := rooted_natives (Scopes.rooted_push_none h) m.scopes.next Native.all
  exact ⟨hrooted, Nat.le_refl _, hrooted.opened⟩

theorem grows_renewed (m : Machine) : m.scopes.Grows m.renewed.scopes :=
  (m.scopes.grows_push none).trans (grows_natives _ _ _)

theorem fresh_rooted (console : Console) (readings : Nat) : (fresh console readings).Rooted :=
  renewed_rooted nofun

end Machine

/-! ## Executions -/

namespace Coupling

theorem rooted_define {root : ScopeId} {scopes : Scopes} (h : scopes.Rooted root) (id : ScopeId)
    (name : String) {value value' : Value}
    (hvalue : value.Corresponds 0
      (fun id id' ↦ id' = id ∧ root ≤ id ∧ id < scopes.next) value') :
    scopes.define id name value' = scopes.define id name value ∧
      (scopes.define id name value).Rooted root := by
  have heq : value' = value := (hvalue.imp fun _ _ hscope ↦ hscope.1).eq
  refine ⟨by rw [heq], h.define id name ?_⟩
  rintro f rfl
  cases hvalue with
  | closure hscope => exact hscope.2

/-- A machine beside itself, where no scopes are in use but those opened since the globals, and the
store has grown from what it was at the origin. -/
def rooted (origin : Machine) : Coupling where
  functions := 0
  readings := 0
  globals id id' := id' = id ∧ id = origin.globals
  console console console' := console' = console
  scope count id id' := id' = id ∧ origin.globals ≤ id ∧ id < count
  scopes s s' := s' = s ∧ s.Rooted origin.globals ∧ origin.scopes.Grows s
  print := print_eq
  scope_mono hcount h := ⟨h.1, h.2.1, Nat.lt_of_lt_of_le h.2.2 hcount⟩
  opened := by
    rintro _ s ⟨rfl, h, -⟩
    exact ⟨rfl, Nat.le_of_lt h.opened, Nat.lt_succ_self _⟩
  push := by
    rintro _ s _ id ⟨rfl, h, hgrown⟩ ⟨rfl, hroot, hid⟩
    exact ⟨rfl, h.push hroot hid, hgrown.trans (s.grows_push id)⟩
  define := by
    rintro _ s _ id v v' name ⟨rfl, h, hgrown⟩ ⟨rfl, -⟩ hv
    obtain ⟨heq, hrooted⟩ := rooted_define h id name hv
    exact ⟨heq, hrooted, hgrown.trans (s.grows_define id name v)⟩
  resolve := by
    rintro _ s _ id name ⟨rfl, h, hgrown⟩ ⟨rfl, hroot, hid⟩
    cases hfound : s.resolve? id name with
    | none => exact .none
    | some found =>
      obtain ⟨howner, hheld⟩ := h.resolve? hroot hid hfound
      refine .some ⟨.refl fun f hf ↦ ⟨rfl, ?_⟩, fun v v' hv ↦ ?_⟩
      · rw [hf] at hheld
        exact h.closures found.1 name f howner hheld
      · obtain ⟨heq, hrooted⟩ := rooted_define h found.1 name hv
        exact ⟨heq, hrooted, hgrown.trans (s.grows_define found.1 name v)⟩

theorem rooted_fits (origin : Machine) (settings : Settings) :
    (rooted origin).Fits settings settings :=
  fits_of_console_eq rfl (fun _ _ ↦ .rfl) settings

theorem rooted_coupled {m : Machine} (h : m.Rooted) : (rooted m).Coupled m m :=
  ⟨⟨rfl, h.scopes, .refl _⟩, ⟨rfl, rfl⟩, ⟨rfl, h.current⟩, rfl, rfl, rfl, rfl⟩

/-- Coupled to itself in this way, a machine is rooted. -/
theorem Coupled.rooted {origin m m' : Machine} (h : (rooted origin).Coupled m m') :
    m.Rooted ∧ origin.scopes.Grows m.scopes := by
  obtain ⟨⟨-, hscopes, hgrown⟩, ⟨-, hglobals⟩, ⟨-, hcurrent⟩, -⟩ := h
  rw [← hglobals] at hscopes hcurrent
  exact ⟨⟨hscopes, hcurrent⟩, hgrown⟩

end Coupling

/-! ## Courses -/

namespace Machine

/-- On the way from one machine to another all machines are rooted, and scopes stay where they
are. -/
structure Passes (before : Machine) (course : List Machine) (after : Machine) : Prop where
  rooted : ∀ m ∈ course, m.Rooted
  since : ∀ m ∈ course, before.scopes.Grows m.scopes
  upto : ∀ m ∈ course, m.scopes.Grows after.scopes
  ordered : course.Pairwise fun earlier later ↦ earlier.scopes.Grows later.scopes
  grows : before.scopes.Grows after.scopes
  after : after.Rooted

theorem passes_nil {before after : Machine} (hgrows : before.scopes.Grows after.scopes)
    (hafter : after.Rooted) : before.Passes [] after where
  rooted := List.forall_mem_nil _
  since := List.forall_mem_nil _
  upto := List.forall_mem_nil _
  ordered := .nil
  grows := hgrows
  after := hafter

/-- What was noted in a course are machines on which only scopes since the globals are in use. -/
theorem passes_of_joins {origin m' : Machine} {record : Record}
    (h : (Coupling.rooted origin).Joins record m') :
    origin.Passes record.passed.reverse record.machine where
  rooted m hm := by
    obtain ⟨_, hcoupled⟩ := h.passed m (List.mem_reverse.mp hm)
    exact hcoupled.rooted.1
  since m hm := by
    obtain ⟨_, hcoupled⟩ := h.passed m (List.mem_reverse.mp hm)
    exact hcoupled.rooted.2
  upto m hm := h.grown m (List.mem_reverse.mp hm)
  ordered := List.pairwise_reverse.mpr h.ordered
  grows := h.coupled.rooted.2
  after := h.coupled.rooted.1

/-- What is done to the current scope and the console does not matter. -/
theorem Passes.of_scopes_eq {before m after : Machine} {course : List Machine}
    (h : before.Passes course m) (hscopes : after.scopes = m.scopes) (hafter : after.Rooted) :
    before.Passes course after where
  rooted := h.rooted
  since := h.since
  upto := hscopes ▸ h.upto
  ordered := h.ordered
  grows := hscopes ▸ h.grows
  after := hafter

/-- Stores with the same scopes have grown alike. -/
theorem Passes.from {before before' after : Machine} {course : List Machine}
    (h : before.Passes course after) (hscopes : before.scopes = before'.scopes) :
    before'.Passes course after where
  rooted := h.rooted
  since := hscopes ▸ h.since
  upto := h.upto
  ordered := h.ordered
  grows := hscopes ▸ h.grows
  after := h.after

namespace Rooted

variable {m : Machine} (h : m.Rooted) (settings : Settings) (steps : Nat)
include h

/-- All machines passed in the execution of a program are rooted. -/
theorem program_passes (echo : Bool) (statements : List Stmt) :
    m.Passes (final (Course.program settings steps echo statements (.start m))).passed.reverse
      (final (Eval.program settings steps echo statements m)) := by
  have hjoins := Coupling.joins_of_at rfl (Coupling.program_at (Coupling.rooted_fits m settings) steps
    echo statements (Coupling.rooted_coupled h).start)
  rw [← Coupling.program_ended, Course.final_ended]
  exact passes_of_joins hjoins

/-- So are those passed in the call of a global, if it is handed no other functions than the machine
can get at. -/
theorem applied_passes (name : Token) {arguments : List Value}
    (harguments : ∀ f, .closure f ∈ arguments → m.Live f.scope) :
    m.Passes (final (Course.applied settings steps name arguments (.start m))).passed.reverse
      (final ((Eval.lookup name >>= fun f ↦
        Eval.apply settings steps settings.levels f arguments) m)) := by
  have hvalues : (Coupling.rooted m).values m.scopes.next arguments arguments := by
    refine List.forall₂_same.mpr fun v hv ↦ .refl fun f hf ↦ ⟨rfl, ?_⟩
    rw [hf] at hv
    exact h.of_live (harguments f hv)
  have hjoins := Coupling.joins_of_at rfl (Coupling.applied_at (Coupling.rooted_fits m settings) steps
    name (Coupling.rooted_coupled h).start hvalues)
  rw [← Coupling.applied_ended, Course.final_ended]
  exact passes_of_joins hjoins

end Rooted

end Machine

end Lox
