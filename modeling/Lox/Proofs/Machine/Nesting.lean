import Lox.Proofs.Machine.Conduct

/-!
# How scopes lie in each other

A scope is opened inside one that is there already and stays where it is.  The numbers of scopes
therefore go down on the way outward, the way has an end, and the number of scopes that a search may
pass is never too small: looking up a name is to look in the scope itself and then in the one around
it.
-/

namespace Lox.Scopes

def enclosing? (scopes : Scopes) (id : ScopeId) : Option ScopeId :=
  scopes.all[id]?.bind Scope.enclosing

@[simp]
theorem enclosing?_define (scopes : Scopes) (id : ScopeId) (name : String) (value : Value)
    (other : ScopeId) :
    (scopes.define id name value).enclosing? other = scopes.enclosing? other := by
  unfold enclosing? define
  rw [Array.getElem?_modify]
  split
  · cases scopes.all[other]? with
    | none => rfl
    | some scope => rfl
  · rfl

theorem enclosing?_push (scopes : Scopes) (enclosing : Option ScopeId) (id : ScopeId) :
    (scopes.push enclosing).enclosing? id =
      if id = scopes.next then enclosing else scopes.enclosing? id := by
  unfold enclosing? push next
  rw [Array.getElem?_push]
  split
  · rfl
  · rfl

/-! ## Stores that grow -/

/-- Scopes may have been opened, and those that were there lie where they lay. -/
structure Grows (before after : Scopes) : Prop where
  next : before.next ≤ after.next
  enclosing : ∀ id < before.next, after.enclosing? id = before.enclosing? id

namespace Grows

theorem refl (scopes : Scopes) : scopes.Grows scopes :=
  ⟨Nat.le_refl _, fun _ _ ↦ rfl⟩

theorem trans {a b c : Scopes} (h : a.Grows b) (h' : b.Grows c) : a.Grows c where
  next := Nat.le_trans h.next h'.next
  enclosing id hid :=
    (h'.enclosing id (Nat.lt_of_lt_of_le hid h.next)).trans (h.enclosing id hid)

end Grows

theorem grows_define (scopes : Scopes) (id : ScopeId) (name : String) (value : Value) :
    scopes.Grows (scopes.define id name value) where
  next := Nat.le_of_eq (next_define scopes id name value).symm
  enclosing other _ := scopes.enclosing?_define id name value other

theorem grows_push (scopes : Scopes) (enclosing : Option ScopeId) :
    scopes.Grows (scopes.push enclosing) where
  next := by simp
  enclosing id hid := by rw [enclosing?_push, if_neg (Nat.ne_of_lt hid)]

/-! ## Stores in which the numbers go down outward -/

/-- Every scope has been opened after the one around it. -/
def Nested (scopes : Scopes) : Prop :=
  ∀ id outer, scopes.enclosing? id = some outer → outer < id

namespace Nested

variable {scopes : Scopes} (h : scopes.Nested)
include h

/-- Nothing is around the scope that was opened first. -/
theorem enclosing?_zero : scopes.enclosing? 0 = none := by
  cases houter : scopes.enclosing? 0 with
  | none => rfl
  | some outer => exact absurd (h 0 outer houter) (Nat.not_lt_zero outer)

/-- Declarations do not move scopes. -/
theorem define (id : ScopeId) (name : String) (value : Value) :
    (scopes.define id name value).Nested := by
  intro other outer houter
  rw [enclosing?_define] at houter
  exact h other outer houter

/-- A scope is opened inside one that is there. -/
theorem push {enclosing : Option ScopeId} (henclosing : ∀ outer ∈ enclosing, outer < scopes.next) :
    (scopes.push enclosing).Nested := by
  intro id outer houter
  rw [enclosing?_push] at houter
  split at houter
  · rename_i hid
    rw [hid]
    exact henclosing outer houter
  · exact h id outer houter

end Nested

/-! ## Searches -/

/-- A search looks in one scope and goes on in the scope around it. -/
theorem search_succ (scopes : Scopes) (name : String) (count : Nat) (id : ScopeId) :
    scopes.search name (count + 1) id =
      ((scopes.held? id name).map (id, ·)).or
        ((scopes.enclosing? id).bind (scopes.search name count)) := by
  rw [search, held?, enclosing?]
  cases scopes.all[id]? with
  | none => rfl
  | some here =>
    dsimp only [Option.bind_some]
    cases here.get? name with
    | some value => rfl
    | none => cases here.enclosing <;> rfl

/-- The bound of a search makes no difference once it exceeds the number of the scope. -/
theorem Nested.search_eq {scopes : Scopes} (h : scopes.Nested) (name : String) {count : Nat}
    {id : ScopeId} (hcount : id < count) :
    scopes.search name count id = scopes.resolve? id name := by
  induction id using Nat.strongRecOn generalizing count with
  | ind id ih =>
    cases count with
    | zero => exact absurd hcount (Nat.not_lt_zero id)
    | succ count =>
      rw [resolve?, search_succ, search_succ]
      cases houter : scopes.enclosing? id with
      | none => rfl
      | some outer =>
        have hlt : outer < id := h id outer houter
        rw [Option.bind_some, Option.bind_some,
          ih outer hlt (Nat.lt_of_lt_of_le hlt (Nat.le_of_lt_succ hcount)), ih outer hlt hlt]

/-- A name is looked for in the scope itself, and then in the scope around it. -/
theorem Nested.resolve?_eq {scopes : Scopes} (h : scopes.Nested) (id : ScopeId) (name : String) :
    scopes.resolve? id name =
      ((scopes.held? id name).map (id, ·)).or
        ((scopes.enclosing? id).bind (scopes.resolve? · name)) := by
  rw [resolve?, search_succ]
  cases houter : scopes.enclosing? id with
  | none => rfl
  | some outer => rw [Option.bind_some, Option.bind_some, h.search_eq name (h id outer houter)]

end Lox.Scopes
