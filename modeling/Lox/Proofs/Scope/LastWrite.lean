import Lox.Proofs.Machine.Nesting

/-!
# The last write counts

A store of scopes is the outcome of its history: scopes have been opened, names declared in them,
and values assigned and asked for.  What a name stands for can be read off the history without the
store.  It is the value that was written last to the nearest scope, on the way outward, in which the
name has been declared.  A write is a declaration in that scope, or an assignment from anywhere for
which that scope was the nearest one at the time.
-/

namespace Lox

open Stateful

/-- What has been done with `count` scopes, the latest last.  Scopes that do not exist can be
neither enclosing nor used. -/
inductive History : (count : Nat) → Type
  | start : History 0
  | opened {count : Nat} (before : History count) (enclosing : Option (Fin count)) :
      History (count + 1)
  | defined {count : Nat} (before : History count) (scope : Fin count) (name : String)
      (value : Value) : History count
  | assigned {count : Nat} (before : History count) (scope : Fin count) (name : Token)
      (value : Value) : History count
  | asked {count : Nat} (before : History count) (scope : Fin count) (name : Token) :
      History count

namespace History

/-! ## What the history tells -/

def chain {count : Nat} : History count → Nat → List Nat
  | .start, _ => []
  | @opened last before enclosing, scope =>
    if scope = last then scope :: enclosing.elim [] fun outer ↦ before.chain outer
    else before.chain scope
  | .defined before _ _ _, scope => before.chain scope
  | .assigned before _ _ _, scope => before.chain scope
  | .asked before _ _, scope => before.chain scope

def declares {count : Nat} : History count → Nat → String → Bool
  | .start, _, _ => false
  | .opened before _, scope, name => before.declares scope name
  | .defined before owner other _, scope, name =>
    (scope == owner && name == other) || before.declares scope name
  | .assigned before _ _ _, scope, name => before.declares scope name
  | .asked before _ _, scope, name => before.declares scope name

/-- The nearest scope outward in which the name has been declared. -/
def nearest? {count : Nat} (history : History count) (scope : Nat) (name : String) : Option Nat :=
  (history.chain scope).find? (history.declares · name)

/-- The value that was last written to the name in this very scope, by a declaration there or by an
assignment that came there. -/
def written? {count : Nat} : History count → Nat → String → Option Value
  | .start, _, _ => none
  | .opened before _, scope, name => before.written? scope name
  | .defined before owner other value, scope, name =>
    if scope = owner ∧ name = other then some value else before.written? scope name
  | .assigned before from' other value, scope, name =>
    if before.nearest? from' other.lexeme = some scope ∧ name = other.lexeme then some value
    else before.written? scope name
  | .asked before _ _, scope, name => before.written? scope name

/-! ## The store -/

/-- The store after a history.  An assignment that fails changes nothing. -/
def scopes {count : Nat} : History count → Scopes
  | .start => {}
  | .opened before enclosing => before.scopes.push (enclosing.map Fin.val)
  | .defined before scope name value => before.scopes.define scope name value
  | .assigned before scope name value =>
    (before.scopes.assign? scope name.lexeme value).getD before.scopes
  | .asked before _ _ => before.scopes

variable {count : Nat}

/-- An assignment is a declaration where the name is found, or nothing. -/
theorem scopes_assigned (before : History count) (scope : Fin count) (name : Token)
    (value : Value) : (before.assigned scope name value).scopes =
      (before.scopes.resolve? scope name.lexeme).elim before.scopes fun found ↦
        before.scopes.define found.1 name.lexeme value := by
  rw [scopes, Scopes.assign?]
  cases before.scopes.resolve? scope name.lexeme <;> rfl

theorem next_scopes (history : History count) : history.scopes.next = count := by
  induction history with
  | start => rfl
  | opened before enclosing ih => rw [scopes, Scopes.next_push, ih]
  | defined before scope name value ih => rw [scopes, Scopes.next_define, ih]
  | assigned before scope name value ih =>
    rw [scopes_assigned]
    cases before.scopes.resolve? scope name.lexeme with
    | none => exact ih
    | some found => exact (Scopes.next_define _ _ _ _).trans ih
  | asked before scope name ih => exact ih

theorem enclosing?_assigned (before : History count) (scope : Fin count) (name : Token)
    (value : Value) (id : ScopeId) :
    (before.assigned scope name value).scopes.enclosing? id = before.scopes.enclosing? id := by
  rw [scopes_assigned]
  cases before.scopes.resolve? scope name.lexeme with
  | none => rfl
  | some found => exact Scopes.enclosing?_define _ _ _ _ _

theorem nested_scopes (history : History count) : history.scopes.Nested := by
  induction history with
  | start => exact nofun
  | opened before enclosing ih =>
    refine ih.push fun outer houter ↦ ?_
    obtain ⟨outer, -, rfl⟩ := Option.map_eq_some_iff.mp houter
    rw [next_scopes]
    exact outer.isLt
  | defined before scope name value ih => exact ih.define scope name value
  | assigned before scope name value ih =>
    intro id outer houter
    rw [enclosing?_assigned] at houter
    exact ih id outer houter
  | asked before scope name ih => exact ih

/-- The way outward in the history is the one in the store. -/
theorem chain_eq (history : History count) {scope : Nat} (h : scope < count) :
    history.chain scope =
      scope :: (history.scopes.enclosing? scope).elim [] history.chain := by
  induction history generalizing scope with
  | start => exact absurd h (Nat.not_lt_zero scope)
  | @opened last before enclosing ih =>
    have hbelow (outer : Nat) (houter : outer < last) :
        (before.opened enclosing).chain outer = before.chain outer :=
      if_neg (Nat.ne_of_lt houter)
    rw [scopes, Scopes.enclosing?_push, next_scopes, chain]
    split
    · cases enclosing with
      | none => rfl
      | some outer => exact congrArg _ (hbelow outer outer.isLt).symm
    · rename_i hne
      have hscope : scope < last := Nat.lt_of_le_of_ne (Nat.le_of_lt_succ h) hne
      rw [ih hscope]
      cases houter : before.scopes.enclosing? scope with
      | none => rfl
      | some outer =>
        have hlt : outer < scope := before.nested_scopes scope outer houter
        exact congrArg _ (hbelow outer (Nat.lt_trans hlt hscope)).symm
  | defined before owner name value ih =>
    rw [scopes, Scopes.enclosing?_define]
    exact ih h
  | assigned before from' name value ih =>
    rw [enclosing?_assigned]
    exact ih h
  | asked before scope name ih => exact ih h

/-! ## What the store holds -/

theorem lt_of_declares {history : History count} {scope : Nat} {name : String}
    (h : history.declares scope name = true) : scope < count := by
  induction history with
  | start => cases h
  | opened before enclosing ih => exact Nat.lt_succ_of_lt (ih h)
  | defined before owner other value ih =>
    rw [declares, Bool.or_eq_true, Bool.and_eq_true, beq_iff_eq] at h
    rcases h with ⟨rfl, -⟩ | h
    · exact owner.isLt
    · exact ih h
  | assigned before from' other value ih => exact ih h
  | asked before from' other ih => exact ih h

theorem declares_of_nearest? {history : History count} {scope owner : Nat} {name : String}
    (h : history.nearest? scope name = some owner) : history.declares owner name = true :=
  List.find?_some (p := (history.declares · name)) h

/-- A name has a value in the scopes in which it has been declared, and in no others. -/
theorem isSome_written? (history : History count) (scope : Nat) (name : String) :
    (history.written? scope name).isSome = history.declares scope name := by
  induction history with
  | start => rfl
  | opened before enclosing ih => exact ih
  | defined before owner other value ih =>
    rw [written?, declares]
    split
    · rename_i h
      simp [h]
    · rename_i h
      rw [ih]
      by_cases hscope : scope = owner <;> simp_all
  | assigned before from' other value ih =>
    rw [written?, declares]
    split
    · rename_i h
      rw [h.2, declares_of_nearest? h.1]
      rfl
    · exact ih
  | asked before from' other ih => exact ih

/-- In a store that holds what has been written, a name is found where it was declared nearest. -/
theorem resolve?_of_held {history : History count}
    (hheld : ∀ scope name, history.scopes.held? scope name = history.written? scope name)
    {scope : Nat} (h : scope < count) (name : String) :
    history.scopes.resolve? scope name =
      (history.nearest? scope name).bind fun owner ↦
        (history.written? owner name).map (owner, ·) := by
  induction scope using Nat.strongRecOn with
  | ind scope ih =>
    have hdeclares := history.isSome_written? scope name
    rw [history.nested_scopes.resolve?_eq, hheld, nearest?, history.chain_eq h, List.find?_cons,
      ← hdeclares]
    cases hwritten : history.written? scope name with
    | some value =>
      exact (congrArg (Option.map (scope, ·)) hwritten).symm
    | none =>
      cases houter : history.scopes.enclosing? scope with
      | none => rfl
      | some outer =>
        have hlt : outer < scope := history.nested_scopes scope outer houter
        exact ih outer hlt (Nat.lt_trans hlt h)

/-- The store holds what has been written last. -/
theorem held?_scopes (history : History count) (scope : Nat) (name : String) :
    history.scopes.held? scope name = history.written? scope name := by
  induction history generalizing scope name with
  | start => rfl
  | opened before enclosing ih => exact (Scopes.held?_push _ _ _ _).trans (ih scope name)
  | defined before owner other value ih =>
    rw [scopes, Scopes.held?_define, next_scopes, written?, ih]
    simp only [owner.isLt, and_true]
  | assigned before from' other value ih =>
    have hresolve := resolve?_of_held ih from'.isLt other.lexeme
    rw [scopes_assigned, written?, hresolve]
    cases hnearest : before.nearest? from' other.lexeme with
    | none =>
      rw [if_neg (by simp)]
      exact ih scope name
    | some owner =>
      have hdeclares := declares_of_nearest? hnearest
      obtain ⟨old, hold⟩ : ∃ old, before.written? owner other.lexeme = some old := by
        rw [← isSome_written?] at hdeclares
        exact Option.isSome_iff_exists.mp hdeclares
      rw [Option.bind_some, hold]
      change (before.scopes.define owner other.lexeme value).held? scope name = _
      rw [Scopes.held?_define, next_scopes, ih]
      simp [lt_of_declares hdeclares, eq_comm]
  | asked before from' other ih => exact ih scope name

/-- A name is found in the nearest scope that declares it, with what was last written there. -/
theorem resolve?_scopes (history : History count) (scope : Fin count) (name : String) :
    history.scopes.resolve? scope name =
      (history.nearest? scope name).bind fun owner ↦
        (history.written? owner name).map (owner, ·) :=
  resolve?_of_held history.held?_scopes scope.isLt name

/-! ## Asking and assigning -/

def on (history : History count) (m : Machine) (scope : Fin count) : Machine :=
  { m with scopes := history.scopes, current := scope }

/-- The answer to the question for a name as seen from a scope. -/
def answer (history : History count) (m : Machine) (scope : Fin count) (name : Token) :
    Except Halt Value :=
  match Eval.lookup name (history.on m scope) with
  | .ok value _ => .ok value
  | .error halt _ => .error halt

def undeclared (name : Token) : Halt :=
  .failed (.atToken .runtime name ("Undefined variable '" ++ name.lexeme ++ "'."))

theorem get?_scopes (history : History count) (scope : Fin count) (name : String) :
    history.scopes.get? scope name =
      (history.nearest? scope name).bind (history.written? · name) := by
  rw [Scopes.get?, resolve?_scopes]
  cases history.nearest? scope name with
  | none => rfl
  | some owner =>
    dsimp only [Option.bind_some]
    cases history.written? owner name <;> rfl

theorem exists_written_of_nearest? {history : History count} {scope owner : Nat} {name : String}
    (h : history.nearest? scope name = some owner) :
    ∃ value, history.written? owner name = some value := by
  apply Option.isSome_iff_exists.mp
  rw [isSome_written?]
  exact declares_of_nearest? h

theorem nearest?_eq_none_iff {history : History count} {scope : Nat} {name : String} :
    history.nearest? scope name = none ↔
      ∀ owner ∈ history.chain scope, history.declares owner name = false := by
  simp [nearest?]

section

variable {history : History count} {scope : Fin count} {name : Token} (m : Machine)

theorem lookup_of_nearest?_none (h : history.nearest? scope name.lexeme = none) :
    Eval.lookup name (history.on m scope) = .error (undeclared name) (history.on m scope) := by
  have hget := history.get?_scopes scope name.lexeme
  rw [h] at hget
  unfold Eval.lookup on
  simp only [hget]
  rfl

theorem lookup_of_written? {owner : Nat} {value : Value}
    (h : history.nearest? scope name.lexeme = some owner)
    (hvalue : history.written? owner name.lexeme = some value) :
    Eval.lookup name (history.on m scope) = .ok value (history.on m scope) := by
  have hget := history.get?_scopes scope name.lexeme
  rw [h, Option.bind_some, hvalue] at hget
  unfold Eval.lookup on
  simp only [hget]

theorem assign_of_nearest?_none (h : history.nearest? scope name.lexeme = none) (value : Value) :
    Eval.assign name value (history.on m scope) =
        .error (undeclared name) (history.on m scope) ∧
      (history.assigned scope name value).scopes = history.scopes := by
  have hresolve := history.resolve?_scopes scope name.lexeme
  rw [h] at hresolve
  rw [scopes_assigned, hresolve]
  unfold Eval.assign on
  simp only [hresolve]
  exact ⟨rfl, rfl⟩

/-- An assignment writes to the nearest scope that declares the name. -/
theorem assign_of_nearest?_some {owner : Nat} (h : history.nearest? scope name.lexeme = some owner)
    (value : Value) :
    Eval.assign name value (history.on m scope) =
      .ok () ((history.assigned scope name value).on m scope) := by
  obtain ⟨old, hold⟩ := exists_written_of_nearest? h
  have hresolve := history.resolve?_scopes scope name.lexeme
  rw [h, Option.bind_some, hold] at hresolve
  unfold Eval.assign on
  simp only [scopes_assigned, hresolve]
  rfl

/-- After an assignment the name has the new value in the scopes from which it is found in the same
place, and nothing else has changed. -/
theorem answer_assigned {owner : Nat} (h : history.nearest? scope name.lexeme = some owner)
    (value : Value) (other : Fin count) (asked : Token) :
    (history.assigned scope name value).answer m other asked =
      if asked.lexeme = name.lexeme ∧ history.nearest? other name.lexeme = some owner then .ok value
      else history.answer m other asked := by
  have hnearest : (history.assigned scope name value).nearest? other asked.lexeme =
      history.nearest? other asked.lexeme := rfl
  cases hasked : history.nearest? other asked.lexeme with
  | none =>
    rw [if_neg (by rintro ⟨heq, hsome⟩; rw [← heq, hasked] at hsome; cases hsome), answer, answer,
      lookup_of_nearest?_none m (hnearest.trans hasked), lookup_of_nearest?_none m hasked]
  | some place =>
    obtain ⟨old, hold⟩ := exists_written_of_nearest? hasked
    rw [answer, answer, lookup_of_written? m hasked hold]
    by_cases hsame : asked.lexeme = name.lexeme ∧ place = owner
    · obtain ⟨hname, rfl⟩ := hsame
      have hwritten : (history.assigned scope name value).written? place asked.lexeme = some value :=
        if_pos ⟨h, hname⟩
      rw [if_pos ⟨hname, hname ▸ hasked⟩,
        lookup_of_written? m (hnearest.trans hasked) hwritten]
    · have hwritten : (history.assigned scope name value).written? place asked.lexeme = some old := by
        rw [written?, if_neg, hold]
        rintro ⟨hplace, hname⟩
        exact hsame ⟨hname, Option.some.inj (hplace.symm.trans h)⟩
      rw [if_neg, lookup_of_written? m (hnearest.trans hasked) hwritten]
      rintro ⟨hname, hplace⟩
      rw [← hname, hasked] at hplace
      exact hsame ⟨hname, Option.some.inj hplace⟩

end

/-- The last write counts.  After every history and for every scope and name: asking for the name
and assigning to it fail, with the fault of an undeclared name at the given token and without any
change, exactly if the name has been declared nowhere on the way outward.  Otherwise the answer is
the value written last to the nearest scope in which it has been declared, and an assignment
succeeds; from then on the answer is the new value wherever the name is found in that scope, and
every other answer, for any name from any scope, is as before. -/
theorem last_write_answers (history : History count) (scope : Fin count) (name : Token)
    (value : Value) (m : Machine) :
    let here := history.on m scope
    let after := history.assigned scope name value
    let unknown := ∀ owner ∈ history.chain scope, history.declares owner name.lexeme = false
    (Eval.lookup name here = .error (undeclared name) here ↔ unknown) ∧
    (Eval.assign name value here = .error (undeclared name) here ↔ unknown) ∧
    (unknown → after.scopes = history.scopes) ∧
    (¬unknown → ∃ owner old, history.nearest? scope name.lexeme = some owner ∧
      history.written? owner name.lexeme = some old ∧
      Eval.lookup name here = .ok old here ∧
      Eval.assign name value here = .ok () (after.on m scope) ∧
      ∀ other asked, after.answer m other asked =
        if asked.lexeme = name.lexeme ∧ history.nearest? other name.lexeme = some owner then
          .ok value
        else history.answer m other asked) := by
  intro here after unknown
  have hunknown : history.nearest? scope name.lexeme = none ↔ unknown := nearest?_eq_none_iff
  cases hnearest : history.nearest? scope name.lexeme with
  | none =>
    have h : unknown := hunknown.mp hnearest
    obtain ⟨hassign, hscopes⟩ := assign_of_nearest?_none m hnearest value
    exact ⟨iff_of_true (lookup_of_nearest?_none m hnearest) h, iff_of_true hassign h,
      fun _ ↦ hscopes, absurd h⟩
  | some owner =>
    have h : ¬unknown := fun h ↦ by
      rw [hunknown.mpr h] at hnearest
      cases hnearest
    obtain ⟨old, hold⟩ := exists_written_of_nearest? hnearest
    have hlookup := lookup_of_written? m hnearest hold
    have hassign := assign_of_nearest?_some m hnearest value
    refine ⟨iff_of_false ?_ h, iff_of_false ?_ h, fun hall ↦ absurd hall h, fun _ ↦
      ⟨owner, old, rfl, hold, hlookup, hassign, answer_assigned m hnearest value⟩⟩
    · intro hfails
      cases hlookup.symm.trans hfails
    · intro hfails
      cases hassign.symm.trans hfails

-- An assignment goes outward while the name is not declared in the inner scope, and a name that has
-- been declared there as nil is no longer sought outside.
example (m : Machine) :
    let a : Token := ⟨.identifier, "a", .nil, 1, 0⟩
    let outer := (((start.opened none).opened (some 0)).defined 0 "a" (.atom (.bool true))).assigned
      1 a (.atom (.bool false))
    let inner := outer.defined 1 "a" (.atom .nil)
    outer.answer m 1 a = .ok (.atom (.bool false)) ∧ inner.answer m 1 a = .ok (.atom .nil) ∧
      inner.answer m 0 a = .ok (.atom (.bool false)) :=
  ⟨rfl, rfl, rfl⟩

end History

end Lox
