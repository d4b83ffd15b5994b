import Lox.Proofs.Machine.Rooted

/-!
# Machines with a past

Scopes and functions are numbered in the order in which they come, and they are never numbered anew.
On a machine with a past the numbers begin where they were left, on a new machine at zero.  Apart
from that the same happens on both, since functions are only told apart by their numbers and scopes
are only found through them; and what the past has left behind is never found.
-/

namespace Lox

variable {functions skipped : Nat}

/-- One of the first `count` scopes and the scope with its number on a machine where `skipped`
scopes were there before. -/
def Shifted (skipped count : Nat) (id id' : ScopeId) : Prop :=
  id' = id + skipped ∧ id < count

theorem Shifted.mono {count count' : Nat} (hcount : count ≤ count') {id id' : ScopeId}
    (h : Shifted skipped count id id') : Shifted skipped count' id id' :=
  ⟨h.1, Nat.lt_of_lt_of_le h.2 hcount⟩

/-! ## Bindings -/

namespace Scope

def Binds (functions skipped count : Nat) (x y : String × Value) : Prop :=
  y.1 = x.1 ∧ x.2.Corresponds functions (Shifted skipped count) y.2

/-- Scopes in which the same names are declared in the same order, with values that correspond. -/
structure Renumbered (functions skipped count : Nat) (a b : Scope) : Prop where
  bindings : List.Forall₂ (Binds functions skipped count) a.bindings b.bindings
  enclosing : b.enclosing = a.enclosing.map (· + skipped)

namespace Renumbered

variable {count : Nat} {a b : Scope} (h : a.Renumbered functions skipped count b)
include h

theorem mono {count' : Nat} (hcount : count ≤ count') :
    a.Renumbered functions skipped count' b where
  bindings := h.bindings.imp fun _ _ hxy ↦ ⟨hxy.1, hxy.2.imp fun _ _ ↦ Shifted.mono hcount⟩
  enclosing := h.enclosing

/-- The same names are declared, with values that correspond. -/
theorem get? (name : String) :
    Option.Rel (Value.Corresponds functions (Shifted skipped count)) (a.get? name)
      (b.get? name) := by
  have hbindings := h.bindings
  unfold Scope.get?
  generalize a.bindings = xs at hbindings ⊢
  generalize b.bindings = ys at hbindings ⊢
  induction hbindings with
  | nil => exact .none
  | @cons x y xs ys hxy hothers ih =>
    obtain ⟨key, value⟩ := x
    obtain ⟨key', value'⟩ := y
    obtain ⟨rfl, hvalue⟩ := hxy
    rw [List.lookup_cons, List.lookup_cons]
    cases name == key' with
    | true => exact .some hvalue
    | false => exact ih

/-- Declaring a name on both sides keeps them so. -/
theorem set (name : String) {value value' : Value}
    (hvalue : value.Corresponds functions (Shifted skipped count) value') :
    (a.set name value).Renumbered functions skipped count (b.set name value') := by
  have hbindings := h.bindings
  refine ⟨?_, h.enclosing⟩
  change List.Forall₂ _ (Scope.bind name value a.bindings) (Scope.bind name value' b.bindings)
  generalize a.bindings = xs at hbindings ⊢
  generalize b.bindings = ys at hbindings ⊢
  induction hbindings with
  | nil => exact .cons ⟨rfl, hvalue⟩ .nil
  | @cons x y xs ys hxy hothers ih =>
    obtain ⟨key, old⟩ := x
    obtain ⟨key', old'⟩ := y
    obtain ⟨rfl, hold⟩ := hxy
    unfold Scope.bind
    split
    · exact .cons ⟨rfl, hvalue⟩ hothers
    · exact .cons ⟨rfl, hold⟩ ih

end Renumbered

end Scope

/-! ## Stores -/

namespace Scopes

/-- Every scope of the first store is there in the second one, after those of the past. -/
structure Renumbered (functions skipped : Nat) (s s' : Scopes) : Prop where
  nested : s.Nested
  next : s'.next = s.next + skipped
  scope : ∀ id < s.next, ∃ a b, s.all[id]? = some a ∧ s'.all[id + skipped]? = some b ∧
    a.Renumbered functions skipped s.next b

/-- At first there is nothing but the past. -/
theorem renumbered_empty (functions : Nat) (past : Scopes) :
    Renumbered functions past.next {} past where
  nested := nofun
  next := (Nat.zero_add _).symm
  scope id hid := absurd hid (Nat.not_lt_zero id)

namespace Renumbered

variable {s s' : Scopes} (h : s.Renumbered functions skipped s')
include h

theorem held? {id : ScopeId} (hid : id < s.next) (name : String) :
    Option.Rel (Value.Corresponds functions (Shifted skipped s.next)) (s.held? id name)
      (s'.held? (id + skipped) name) := by
  obtain ⟨a, b, ha, hb, hab⟩ := h.scope id hid
  rw [Scopes.held?, Scopes.held?, ha, hb]
  exact hab.get? name

theorem enclosing? {id : ScopeId} (hid : id < s.next) :
    s'.enclosing? (id + skipped) = (s.enclosing? id).map (· + skipped) := by
  obtain ⟨a, b, ha, hb, hab⟩ := h.scope id hid
  rw [Scopes.enclosing?, Scopes.enclosing?, ha, hb]
  exact hab.enclosing

/-- A scope opened on both sides gets numbers that correspond. -/
theorem push {enclosing : Option ScopeId} (henclosing : ∀ outer ∈ enclosing, outer < s.next) :
    (s.push enclosing).Renumbered functions skipped
      (s'.push (enclosing.map (· + skipped))) where
  nested := h.nested.push henclosing
  next := by rw [next_push, next_push, h.next, Nat.add_right_comm]
  scope id hid := by
    have hsize : s'.all.size = s.all.size + skipped := h.next
    rw [next_push] at hid ⊢
    unfold Scopes.push
    dsimp only
    rw [Array.getElem?_push, Array.getElem?_push, hsize]
    by_cases hnew : id = s.all.size
    · rw [if_pos hnew, if_pos (congrArg (· + skipped) hnew)]
      exact ⟨_, _, rfl, rfl, .nil, rfl⟩
    · have hold : id < s.next := Nat.lt_of_le_of_ne (Nat.le_of_lt_succ hid) hnew
      rw [if_neg hnew, if_neg fun heq ↦ hnew (Nat.add_right_cancel heq)]
      obtain ⟨a, b, ha, hb, hab⟩ := h.scope id hold
      exact ⟨a, b, ha, hb, hab.mono (Nat.le_succ _)⟩

/-- A declaration on both sides goes to scopes that correspond. -/
theorem define (id : ScopeId) (name : String) {value value' : Value}
    (hvalue : value.Corresponds functions (Shifted skipped s.next) value') :
    (s.define id name value).Renumbered functions skipped
      (s'.define (id + skipped) name value') where
  nested := h.nested.define id name value
  next := by rw [next_define, next_define, h.next]
  scope other hother := by
    rw [next_define] at hother ⊢
    obtain ⟨a, b, ha, hb, hab⟩ := h.scope other hother
    unfold Scopes.define
    dsimp only
    rw [Array.getElem?_modify, Array.getElem?_modify, ha, hb]
    by_cases heq : id = other
    · rw [if_pos heq, if_pos (congrArg (· + skipped) heq)]
      exact ⟨_, _, rfl, rfl, hab.set name hvalue⟩
    · rw [if_neg heq, if_neg fun hsame ↦ heq (Nat.add_right_cancel hsame)]
      exact ⟨a, b, rfl, rfl, hab⟩

/-- A name is found in scopes with the same number, and the past is not reached. -/
theorem resolve? {id : ScopeId} (hid : id < s.next) (name : String) :
    Option.Rel (fun found found' ↦
        found.2.Corresponds functions (Shifted skipped s.next) found'.2 ∧
        ∀ v v' : Value, v.Corresponds functions (Shifted skipped s.next) v' →
          (s.define found.1 name v).Renumbered functions skipped (s'.define found'.1 name v'))
      (s.resolve? id name) (s'.resolve? (id + skipped) name) := by
  -- The second search may go further, which makes no difference as there is nothing to be found.
  suffices hsearch : ∀ count, id < count → Option.Rel (fun found found' ↦
        found.2.Corresponds functions (Shifted skipped s.next) found'.2 ∧
        ∀ v v' : Value, v.Corresponds functions (Shifted skipped s.next) v' →
          (s.define found.1 name v).Renumbered functions skipped (s'.define found'.1 name v'))
      (s.resolve? id name) (s'.search name count (id + skipped)) from
    hsearch _ (Nat.lt_succ_of_le (Nat.le_add_right id skipped))
  induction id using Nat.strongRecOn with
  | ind id ih =>
    intro count hcount
    cases count with
    | zero => exact absurd hcount (Nat.not_lt_zero id)
    | succ count =>
      rw [h.nested.resolve?_eq, search_succ, h.enclosing? hid]
      have hheld := h.held? hid name
      cases hleft : s.held? id name with
      | some value =>
        cases hright : s'.held? (id + skipped) name with
        | none =>
          rw [hleft, hright] at hheld
          cases hheld
        | some value' =>
          rw [hleft, hright] at hheld
          exact .some ⟨Option.rel_some_some.mp hheld, fun v v' hv ↦ h.define id name hv⟩
      | none =>
        cases hright : s'.held? (id + skipped) name with
        | some value' =>
          rw [hleft, hright] at hheld
          cases hheld
        | none =>
          cases houter : s.enclosing? id with
          | none => exact .none
          | some outer =>
            have hlt : outer < id := h.nested id outer houter
            exact ih outer hlt (Nat.lt_trans hlt hid) count
              (Nat.lt_of_lt_of_le hlt (Nat.le_of_lt_succ hcount))

/-- The names declared in a scope are listed in the same order. -/
theorem listing {id : ScopeId} (hid : id < s.next) :
    List.Forall₂ (Scope.Binds functions skipped s.next) (s.listing id)
      (s'.listing (id + skipped)) := by
  obtain ⟨a, b, ha, hb, hab⟩ := h.scope id hid
  obtain ⟨hlength, hbinds⟩ := List.forall₂_iff_zip.mp hab.bindings
  unfold Scopes.listing
  rw [ha, hb]
  dsimp only
  -- Sorting the pairs of bindings sorts both lists, as the names in a pair are the same.
  let pairs := a.bindings.zip b.bindings
  let before (x y : (String × Value) × (String × Value)) : Bool := decide (x.1.1 ≤ y.1.1)
  have hleft : (pairs.mergeSort before).map Prod.fst =
      a.bindings.mergeSort fun x y ↦ decide (x.1 ≤ y.1) := by
    rw [List.map_mergeSort, List.map_fst_zip (Nat.le_of_eq hlength)]
    intros
    rfl
  have hright : (pairs.mergeSort before).map Prod.snd =
      b.bindings.mergeSort fun x y ↦ decide (x.1 ≤ y.1) := by
    rw [List.map_mergeSort, List.map_snd_zip (Nat.le_of_eq hlength.symm)]
    intro x hx y hy
    rw [(hbinds hx).1, (hbinds hy).1]
  rw [← hleft, ← hright, List.forall₂_map_left_iff, List.forall₂_map_right_iff,
    List.forall₂_same]
  intro pair hpair
  exact hbinds (List.mem_mergeSort.mp hpair)

theorem natives (id : ScopeId) (natives : List Native) :
    Renumbered functions skipped
      (natives.foldl (fun scopes f ↦ scopes.define id f.name (.native f)) s)
      (natives.foldl (fun scopes f ↦ scopes.define (id + skipped) f.name (.native f)) s') := by
  induction natives generalizing s s' with
  | nil => exact h
  | cons f natives ih => exact ih (h.define id f.name (.native f))

end Renumbered

end Scopes

/-! ## Executions -/

namespace Coupling

def renumbered (functions skipped readings : Nat) : Coupling where
  functions := functions
  readings := readings
  globals id id' := id' = id + skipped
  console console console' := console' = console
  scope := Shifted skipped
  scopes := Scopes.Renumbered functions skipped
  print := print_eq
  scope_mono hcount h := h.mono hcount
  opened h := ⟨h.next, Nat.lt_succ_self _⟩
  push := by
    rintro s s' id _ h ⟨rfl, hid⟩
    exact h.push fun _ hmem ↦ Option.some.inj hmem ▸ hid
  define := by
    rintro s s' id _ v v' name h ⟨rfl, -⟩ hv
    exact h.define id name hv
  resolve := by
    rintro s s' id _ name h ⟨rfl, hid⟩
    exact h.resolve? hid name

variable {readings : Nat}

/-- Machines are still coupled when their globals are forgotten. -/
theorem renumbered_renewed {m m' : Machine}
    (hscopes : m.scopes.Renumbered functions skipped m'.scopes)
    (hfunctions : m'.functions = m.functions + functions)
    (hreadings : m'.readings = m.readings + readings) (hconsole : m'.console = m.console) :
    (renumbered functions skipped readings).Coupled m.renewed m'.renewed := by
  have hpushed : (m.scopes.push none).Renumbered functions skipped (m'.scopes.push none) :=
    hscopes.push nofun
  have hrenewed := hpushed.natives m.scopes.next Native.all
  rw [← hscopes.next] at hrenewed
  have hopened := (Machine.renewed_rooted hscopes.nested).scopes.opened
  exact ⟨hrenewed, hscopes.next, ⟨hscopes.next, hopened⟩, rfl, hfunctions, hreadings, hconsole⟩

/-- A new machine is coupled with any machine whose globals are forgotten. -/
theorem renumbered_fresh (m : Machine) :
    (renumbered m.functions m.scopes.next m.readings).Coupled (.fresh m.console 0) m.renewed :=
  renumbered_renewed (Scopes.renumbered_empty m.functions m.scopes) (Nat.zero_add _).symm
    (Nat.zero_add _).symm rfl

end Coupling

/-- The settings of a machine whose clock begins with the reading after the first `count`. -/
def Settings.later (settings : Settings) (count : Nat) : Settings :=
  { settings with clock := fun reading ↦ settings.clock (reading + count) }

theorem Coupling.renumbered_fits (functions skipped readings : Nat) (settings : Settings) :
    (renumbered functions skipped readings).Fits (settings.later readings) settings where
  levels := rfl
  calls := rfl
  clock _ := rfl
  traced := .inl rfl
  trace := by
    rintro console _ step rfl
    rfl

end Lox
