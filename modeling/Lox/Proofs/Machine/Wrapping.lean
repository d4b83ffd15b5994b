import Lox.Proofs.Machine.Renumbering
import Lox.Proofs.Machine.Sequence

/-!
# A block around a program

The names that a program declares are declared in the scope of the globals, where the functions that
the machine provides are declared too.  With a block around it they are declared in a scope of their
own inside that one, and may shadow what they would have replaced.  A program cannot tell the
difference: whatever it looks up is found in one scope or in one of two, and a new value is given to
it where it is found.

All scopes that are opened later have numbers that are greater by one.
-/

namespace Lox

open Stateful

/-! ## Stores -/

namespace Scopes

/-- What a scope holds, where the scope with number one is taken together with the outermost. -/
def layer? (scopes : Scopes) (id : ScopeId) (name : String) : Option Value :=
  (scopes.held? (id + 1) name).or (if id = 0 then scopes.held? 0 name else none)

/-- What the outermost scope of the first store holds is divided between the first two scopes of the
second store; the other scopes are the same. -/
structure Layered (s s' : Scopes) : Prop where
  nested : s.Nested
  nested' : s'.Nested
  opened : 0 < s.next
  next : s'.next = s.next + 1
  held : ∀ id < s.next, ∀ name, Option.Rel (Value.Corresponds 0 (Shifted 1 s.next))
    (s.held? id name) (s'.layer? id name)
  enclosing : ∀ id < s.next,
    s'.enclosing? (id + 1) = if id = 0 then some 0 else (s.enclosing? id).map (· + 1)

theorem corresponds_mono {count count' : Nat} (hcount : count ≤ count')
    {found found' : Option Value}
    (h : Option.Rel (Value.Corresponds 0 (Shifted 1 count)) found found') :
    Option.Rel (Value.Corresponds 0 (Shifted 1 count')) found found' := by
  cases h with
  | none => exact .none
  | some hv => exact .some (hv.imp fun _ _ ↦ Shifted.mono hcount)

/-- A scope is opened inside the only one there is. -/
theorem layered_push_only {scopes : Scopes} (hnested : scopes.Nested) (hnext : scopes.next = 1)
    (hfunctions : ∀ name f, scopes.held? 0 name ≠ some (.closure f)) :
    scopes.Layered (scopes.push (some 0)) where
  nested := hnested
  nested' := hnested.push fun outer houter ↦ by
    rw [hnext, ← Option.some.inj houter]
    exact Nat.zero_lt_one
  opened := by rw [hnext]; exact Nat.zero_lt_one
  next := next_push scopes (some 0)
  held id hid name := by
    obtain rfl : id = 0 := Nat.lt_one_iff.mp (hnext ▸ hid)
    rw [layer?, held?_push, held?_push, held?_of_le (Nat.le_of_eq hnext), if_pos rfl,
      Option.none_or]
    cases hheld : scopes.held? 0 name with
    | none => exact .none
    | some value => exact .some (.refl fun f hf ↦ absurd (hf ▸ hheld) (hfunctions name f))
  enclosing id hid := by
    obtain rfl : id = 0 := Nat.lt_one_iff.mp (hnext ▸ hid)
    rw [enclosing?_push, if_pos hnext.symm, if_pos rfl]

namespace Layered

variable {s s' : Scopes} (h : s.Layered s')
include h

/-- A scope opened inside corresponding scopes gets the next number on both sides. -/
theorem push {id : ScopeId} (hid : id < s.next) :
    (s.push (some id)).Layered (s'.push (some (id + 1))) where
  nested := h.nested.push fun outer houter ↦ Option.some.inj houter ▸ hid
  nested' := h.nested'.push fun outer houter ↦ by
    rw [h.next, ← Option.some.inj houter]
    exact Nat.succ_lt_succ hid
  opened := by rw [next_push]; exact Nat.succ_pos _
  next := by rw [next_push, next_push, h.next]
  held other hother name := by
    rw [next_push] at hother ⊢
    rw [layer?, held?_push, held?_push, held?_push]
    by_cases hnew : other = s.next
    · have hne : other ≠ 0 := hnew ▸ Nat.ne_of_gt h.opened
      rw [held?_of_le (Nat.le_of_eq hnew.symm), if_neg hne,
        held?_of_le (Nat.le_of_eq (h.next.trans (congrArg (· + 1) hnew.symm)))]
      exact .none
    · have hold : other < s.next := Nat.lt_of_le_of_ne (Nat.le_of_lt_succ hother) hnew
      exact corresponds_mono (Nat.le_succ _) (h.held other hold name)
  enclosing other hother := by
    rw [next_push] at hother
    rw [enclosing?_push, enclosing?_push, h.next]
    by_cases hnew : other = s.next
    · have hne : other ≠ 0 := hnew ▸ Nat.ne_of_gt h.opened
      rw [if_pos (congrArg (· + 1) hnew), if_neg hne, if_pos hnew]
      rfl
    · have hold : other < s.next := Nat.lt_of_le_of_ne (Nat.le_of_lt_succ hother) hnew
      rw [if_neg fun heq ↦ hnew (Nat.add_right_cancel heq), if_neg hnew]
      exact h.enclosing other hold

/-- Giving values to names does not move scopes, so what is held is all there is to be looked at. -/
theorem define_of_held {id id' : ScopeId} {name : String} {value value' : Value}
    (hheld : ∀ other < s.next, ∀ key, Option.Rel (Value.Corresponds 0 (Shifted 1 s.next))
      ((s.define id name value).held? other key) ((s'.define id' name value').layer? other key)) :
    (s.define id name value).Layered (s'.define id' name value') where
  nested := h.nested.define id name value
  nested' := h.nested'.define id' name value'
  opened := by rw [next_define]; exact h.opened
  next := by rw [next_define, next_define, h.next]
  held other hother := by
    rw [next_define] at hother ⊢
    exact hheld other hother
  enclosing other hother := by
    rw [next_define] at hother
    rw [enclosing?_define, enclosing?_define]
    exact h.enclosing other hother

/-- A name is declared, or gets a new value, in one of the scopes that are the same or in the one
that takes the names of the program. -/
theorem define {id : ScopeId} (hid : id < s.next) (name : String) {value value' : Value}
    (hvalue : value.Corresponds 0 (Shifted 1 s.next) value') :
    (s.define id name value).Layered (s'.define (id + 1) name value') := by
  apply h.define_of_held
  intro other hother key
  have hbase : (s'.define (id + 1) name value').held? 0 key = s'.held? 0 key :=
    held?_define_of_ne (fun heq ↦ absurd heq.symm (Nat.succ_ne_zero id)) value'
  rw [layer?, hbase]
  by_cases heq : other = id ∧ key = name
  · obtain ⟨rfl, rfl⟩ := heq
    rw [held?_define, if_pos ⟨rfl, rfl, hid⟩, held?_define,
      if_pos ⟨rfl, rfl, h.next ▸ Nat.succ_lt_succ hid⟩, Option.some_or]
    exact .some hvalue
  · rw [held?_define_of_ne fun hother hkey ↦ heq ⟨hother, hkey⟩,
      held?_define_of_ne fun hother hkey ↦ heq ⟨Nat.add_right_cancel hother, hkey⟩]
    exact h.held other hother key

/-- A name that is not shadowed gets a new value in the outermost scope. -/
theorem define_outermost {name : String} (hshadow : s'.held? 1 name = none) {value value' : Value}
    (hvalue : value.Corresponds 0 (Shifted 1 s.next) value') :
    (s.define 0 name value).Layered (s'.define 0 name value') := by
  apply h.define_of_held
  intro other hother key
  have habove : (s'.define 0 name value').held? (other + 1) key = s'.held? (other + 1) key :=
    held?_define_of_ne (fun heq ↦ absurd heq (Nat.succ_ne_zero other)) value'
  rw [layer?, habove]
  by_cases heq : other = 0 ∧ key = name
  · obtain ⟨rfl, rfl⟩ := heq
    rw [held?_define, if_pos ⟨rfl, rfl, h.opened⟩, if_pos rfl, held?_define,
      if_pos ⟨rfl, rfl, h.next ▸ Nat.succ_pos _⟩, hshadow, Option.none_or]
    exact .some hvalue
  · have hbase : (if other = 0 then (s'.define 0 name value').held? 0 key else none) =
        if other = 0 then s'.held? 0 key else none := by
      split
      · rename_i hroot
        rw [held?_define_of_ne fun _ hkey ↦ heq ⟨hroot, hkey⟩]
      · rfl
    rw [hbase, held?_define_of_ne fun hroot hkey ↦ heq ⟨hroot, hkey⟩]
    exact h.held other hother key

/-- A search comes to values that correspond, in scopes where they can be replaced. -/
theorem resolve? {id : ScopeId} (hid : id < s.next) (name : String) :
    Option.Rel (fun found found' ↦
        found.2.Corresponds 0 (Shifted 1 s.next) found'.2 ∧
        ∀ v v' : Value, v.Corresponds 0 (Shifted 1 s.next) v' →
          (s.define found.1 name v).Layered (s'.define found'.1 name v'))
      (s.resolve? id name) (s'.resolve? (id + 1) name) := by
  induction id using Nat.strongRecOn with
  | ind id ih =>
    rw [h.nested.resolve?_eq, h.nested'.resolve?_eq, h.enclosing id hid]
    have hheld := h.held id hid name
    rw [layer?] at hheld
    generalize hleft : s.held? id name = left at hheld
    cases hright : s'.held? (id + 1) name with
    | some value' =>
      rw [hright, Option.some_or] at hheld
      cases hheld with
      | some hvalue => exact .some ⟨hvalue, fun v v' hv ↦ h.define hid name hv⟩
    | none =>
      rw [hright, Option.none_or] at hheld
      by_cases hroot : id = 0
      · subst hroot
        rw [if_pos rfl] at hheld ⊢
        rw [h.nested.enclosing?_zero, Option.bind_some, h.nested'.resolve?_eq,
          h.nested'.enclosing?_zero]
        cases hbase : s'.held? 0 name with
        | none =>
          rw [hbase] at hheld
          cases hheld
          exact .none
        | some value' =>
          rw [hbase] at hheld
          cases hheld with
          | some hvalue => exact .some ⟨hvalue, fun v v' hv ↦ h.define_outermost hright hv⟩
      · rw [if_neg hroot] at hheld ⊢
        cases hheld
        cases houter : s.enclosing? id with
        | none => exact .none
        | some outer =>
          have hlt : outer < id := h.nested id outer houter
          exact ih outer hlt (Nat.lt_trans hlt hid)

end Layered

end Scopes

/-! ## Machines -/

namespace Coupling

def layered : Coupling where
  functions := 0
  readings := 0
  globals _ _ := True
  console console console' := console' = console
  scope := Shifted 1
  scopes := Scopes.Layered
  print := print_eq
  scope_mono hcount h := h.mono hcount
  opened h := ⟨h.next, Nat.lt_succ_self _⟩
  push := by
    rintro s s' id _ h ⟨rfl, hid⟩
    exact h.push hid
  define := by
    rintro s s' id _ v v' name h ⟨rfl, hid⟩ hv
    exact h.define hid name hv
  resolve := by
    rintro s s' id _ name h ⟨rfl, hid⟩
    exact h.resolve? hid name

theorem layered_fits (settings : Settings) : layered.Fits settings settings :=
  fits_of_console_eq rfl (fun _ _ ↦ .rfl) settings

end Coupling

namespace Machine

def entered (m : Machine) : Machine :=
  m.opened m.current

theorem held?_natives {scopes : Scopes}
    (h : ∀ id name f, scopes.held? id name ≠ some (.closure f)) (root : ScopeId)
    (natives : List Native) (id : ScopeId) (name : String) (f : Closure) :
    (natives.foldl (fun scopes f ↦ scopes.define root f.name (.native f)) scopes).held? id name ≠
      some (.closure f) := by
  induction natives generalizing scopes with
  | nil => exact h id name f
  | cons native natives ih =>
    refine ih fun id name f ↦ ?_
    rw [Scopes.held?_define]
    split
    · exact nofun
    · exact h id name f

/-- A program may be executed on a new machine or in a block there. -/
theorem fresh_layered (console : Console) (readings : Nat) :
    Coupling.layered.Coupled (fresh console readings) (fresh console readings).entered where
  scopes := by
    have hempty (id : ScopeId) (name : String) (f : Closure) :
        (Scopes.push {} none).held? id name ≠ some (.closure f) := by
      rw [Scopes.held?_push]
      exact nofun
    exact Scopes.layered_push_only (fresh_rooted console readings).scopes.nested rfl
      (held?_natives hempty 0 Native.all 0)
  globals := trivial
  current := ⟨rfl, Nat.zero_lt_one⟩
  frames := rfl
  functions := rfl
  readings := rfl
  console := rfl

end Machine

/-! ## Executions -/

namespace Eval

/-- Two executions stop for the same reason.  A function that is returned may lie elsewhere. -/
def HaltsAs : Halt → Halt → Prop
  | .returned v, .returned v' => v.Corresponds 0 (fun _ _ ↦ True) v'
  | halt, halt' => halt' = halt

def EndsAs : EStateM.Result Halt Machine Unit → EStateM.Result Halt Machine Unit → Prop
  | .ok _ m, .ok _ m' => m'.console = m.console
  | .error halt m, .error halt' m' => m'.console = m.console ∧ HaltsAs halt halt'
  | _, _ => False

variable {settings : Settings} {result result' : EStateM.Result Halt Machine Unit}

theorem EndsAs.console (h : EndsAs result result') :
    (final result').console = (final result).console := by
  cases result with
  | ok _ m =>
    cases result' with
    | ok _ m' => exact h
    | error halt' m' => cases h
  | error halt m =>
    cases result' with
    | ok _ m' => cases h
    | error halt' m' => exact h.1

/-- Giving up is a reason of its own. -/
theorem EndsAs.givesUp {halt : Halt} (hgives : GivesUp True True halt) {after : Machine}
    (h : EndsAs (.error halt after) result') : ∃ after', result' = .error halt after' := by
  cases result' with
  | ok _ m' => cases h
  | error halt' m' =>
    cases halt with
    | unfinished | exhausted =>
      obtain rfl := h.2
      exact ⟨m', rfl⟩
    | returned | failed | faulted => exact absurd hgives id

/-- Executions that correspond stop for the same reason. -/
theorem halts_layered {count : Nat} {halt halt' : Halt}
    (h : Coupling.layered.halts count halt halt') : HaltsAs halt halt' := by
  cases halt with
  | returned v =>
    cases halt' with
    | returned v' => exact Value.Corresponds.imp h fun _ _ _ ↦ trivial
    | failed | faulted | exhausted | unfinished => cases h
  | failed | faulted | exhausted | unfinished => exact h.symm

/-- Without trace, executing a block is to execute what it holds in a new scope. -/
theorem stmt_block (h : settings.traced = false) (count room : Nat) (body : List Stmt)
    (m : Machine) :
    stmt settings (count + 1) (room + 3) (.block body) m =
      Host.inside (.scope none) (stmts settings count (room - 1) body) m := by
  unfold stmt
  change (checkText settings _ _ >>= fun _ ↦ traceStmt settings _ >>= fun _ ↦ _) m = _
  rw [checkText_of_untraced h, traceStmt_of_untraced h]
  rfl

/-- What a block holds is executed as it is without the block. -/
theorem stmt_block_endsAs (h : settings.traced = false) (count room : Nat) (body : List Stmt)
    {m : Machine} (hm : Coupling.layered.Coupled m m.entered) :
    EndsAs (stmts settings count (room - 1) body m)
      (stmt settings (count + 1) (room + 3) (.block body) m) := by
  have hdone := Coupling.stmts_done (Coupling.layered_fits settings) rfl count (room - 1) body hm
  rw [stmt_block h]
  change EndsAs _ (Host.leave (.scope none) m.current (stmts settings count (room - 1) body m.entered))
  cases hplain : stmts settings count (room - 1) body m with
  | ok _ after =>
    cases hwrapped : stmts settings count (room - 1) body m.entered with
    | ok _ after' =>
      rw [hplain, hwrapped] at hdone
      exact hdone.1.console
    | error halt' after' =>
      rw [hplain, hwrapped] at hdone
      cases hdone
  | error halt after =>
    cases hwrapped : stmts settings count (room - 1) body m.entered with
    | ok _ after' =>
      rw [hplain, hwrapped] at hdone
      cases hdone
    | error halt' after' =>
      rw [hplain, hwrapped] at hdone
      exact ⟨hdone.1.console, halts_layered hdone.2.2⟩

/-- A program that consists of one block executes the block. -/
theorem program_block (steps : Nat) (body : List Stmt) (m : Machine) :
    program settings steps false [.block body] m =
      stmt settings steps settings.levels (.block body) m := by
  change (stmt settings steps settings.levels (.block body) >>= fun _ ↦ pure ()) m = _
  cases h : stmt settings steps settings.levels (.block body) m with
  | ok _ after => exact bind_of_ok h _
  | error halt after => exact bind_of_error h _

section

variable (htrace : settings.traced = false) {m : Machine}
  (hm : Coupling.layered.Coupled m m.entered)
include htrace hm

/-- With enough steps, the block ends as the program does if room is left; if the program does not
end, what it has printed is what the block prints first. -/
theorem program_endsAs_block (steps : Nat) (body : List Stmt) :
    ∃ steps', (∃ after, program settings steps' false [.block body] m = .error .exhausted after) ∨
      (∃ after, program settings steps false body m = .error .unfinished after ∧
        after.Printed (final (program settings steps' false [.block body] m))) ∨
      EndsAs (program settings steps false body m)
        (program settings steps' false [.block body] m) := by
  by_cases hlevels : settings.levels < 3
  · refine ⟨1, .inl ⟨m, ?_⟩⟩
    rw [program_block, stmt_exhausted settings 0 hlevels]
    rfl
  obtain ⟨room, hroom⟩ : ∃ below, settings.levels = below + 3 := ⟨settings.levels - 3, by omega⟩
  let count := steps + body.length + 1
  refine ⟨count + 1, ?_⟩
  have hends := stmt_block_endsAs htrace count room body hm
  rw [program_block, program_eq_inTurn, hroom]
  -- The same room as in the block, and the steps of the program: from here both are reached.
  rcases (inTurn_continues (Nat.le_trans (Nat.sub_le room 1) (Nat.le_add_right room 3)) steps
      body).fork (inTurn_continues_stmts (room - 1) (Nat.lt_succ_self _)) m with
    ⟨after, hexhausted⟩ | ⟨after, hunfinished, hprinted⟩ | heq
  · rw [hexhausted] at hends
    exact .inl (hends.givesUp trivial)
  · obtain ⟨text, htext⟩ := hprinted
    exact .inr (.inl ⟨after, hunfinished, text, by rw [hends.console]; exact htext⟩)
  · rw [← heq]
    exact .inr (.inr hends)

/-- With enough steps, the program ends as the block does if room is left; if the block does not
end, what it has printed is what the program prints first. -/
theorem block_endsAs_program (steps : Nat) (body : List Stmt) :
    ∃ steps', (∃ halt after, program settings steps false [.block body] m = .error halt after ∧
        GivesUp True True halt ∧
        after.Printed (final (program settings steps' false body m))) ∨
      EndsAs (program settings steps' false body m)
        (program settings steps false [.block body] m) := by
  have hprints (m : Machine) : m.Printed (final (program settings steps false body m)) :=
    ((program_continues (Nat.le_refl steps) false body).prints m).printed
  refine ⟨steps, ?_⟩
  cases steps with
  | zero =>
    refine .inl ⟨.unfinished, m, ?_, trivial, hprints m⟩
    rw [program_block, stmt]
    rfl
  | succ count =>
    by_cases hlevels : settings.levels < 3
    · refine .inl ⟨.exhausted, m, ?_, trivial, hprints m⟩
      rw [program_block, stmt_exhausted settings count hlevels]
      rfl
    obtain ⟨room, hroom⟩ : ∃ below, settings.levels = below + 3 := ⟨settings.levels - 3, by omega⟩
    have hends := stmt_block_endsAs htrace count room body hm
    rw [program_block, program_eq_inTurn, hroom]
    rcases (stmts_continues_inTurn (Nat.le_succ count)
        (Nat.le_trans (Nat.sub_le room 1) (Nat.le_add_right room 3)) body).ends m with
      ⟨halt, after, hgivesUp, hgives, ⟨text, htext⟩, -⟩ | heq
    · rw [hgivesUp] at hends
      obtain ⟨after', heq'⟩ := hends.givesUp hgives
      have hconsole := hends.console
      rw [heq'] at hconsole
      exact .inl ⟨halt, after', heq', hgives, text, by
        change after'.console = after.console at hconsole
        rw [hconsole]; exact htext⟩
    · rw [heq]
      exact .inr hends

end

end Eval

end Lox
