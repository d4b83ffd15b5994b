import Lox.Proofs.Session.Faultless

/-!
# What execution leaves as it was

Whatever is executed and however it ends, the scope that was current before is current afterwards
and the calls that were in progress are in progress.  Scopes that were there before keep their
names: evaluating an expression or executing a block adds none to them, and executing any other
statement adds names to the current scope only.  What such a scope holds for a name changes only if
the name is assigned to, or if the statement declares it in that scope once more.
-/

namespace Lox

open Stateful

/-- Executing a program does not change which scope holds the globals. -/
theorem Session.execute_globals (settings : Settings) (steps : Nat) (echo : Bool)
    (statements : List Stmt) (session : Session) :
    (session.execute settings steps echo statements).2.machine.globals =
      session.machine.globals := by
  have hrestored := Machine.restored_evolution.program_moves
    { settings with traced := session.reporter.flags.contains .trace } steps echo statements
    session.machine
  unfold Session.execute
  dsimp only
  split
  · rename_i heq
    rw [heq] at hrestored
    exact hrestored.globals
  · rename_i heq
    rw [heq] at hrestored
    split
    all_goals exact hrestored.globals

namespace Machine

/-! ## The current scope and the calls in progress -/

/-- The current scope and the calls in progress are restored.  On every machine, evaluating an
expression, executing a statement and executing a program leave them as they were, however that
ends; and after the execution of a program in a session, the globals are current and no call is in
progress. -/
theorem execution_restores (settings : Settings) (steps levels : Nat) :
    (∀ (m : Machine) (e : Expr), m.Restored (final (Eval.expr settings steps levels e m))) ∧
    (∀ (m : Machine) (s : Stmt), m.Restored (final (Eval.stmt settings steps levels s m))) ∧
    ∀ (session : Session) (echo : Bool) (statements : List Stmt),
      session.machine.Restored (final (Eval.program settings steps echo statements
        session.machine)) ∧
      (session.execute settings steps echo statements).2.machine.AtRest ∧
      (session.execute settings steps echo statements).2.machine.globals =
        session.machine.globals := by
  refine ⟨fun m e ↦ ?_, fun m s ↦ ?_, fun session echo statements ↦ ⟨?_, ?_, ?_⟩⟩
  · exact restored_evolution.expr_moves settings steps levels e m
  · exact restored_evolution.stmt_moves settings steps levels s m
  · exact restored_evolution.program_moves settings steps echo statements session.machine
  · exact session.execute_atRest settings steps echo statements
  · exact session.execute_globals settings steps echo statements

/-! ## Names and values in scopes -/

def Declares (m : Machine) (id : ScopeId) (name : String) : Prop :=
  (m.scopes.held? id name).isSome = true

/-- After an execution that assigns to names in `assigns` and declares names in `declares`, what the
scopes hold that were there before. -/
structure Extends (assigns declares : String → Prop) (before after : Machine) : Prop where
  current : after.current = before.current
  next : before.scopes.next ≤ after.scopes.next
  kept : ∀ id < before.scopes.next, ∀ name, before.Declares id name → after.Declares id name
  names : ∀ id < before.scopes.next, ∀ name, (id = before.current → ¬declares name) →
    after.Declares id name → before.Declares id name
  values : ∀ id < before.scopes.next, ∀ name, (id = before.current → ¬declares name) →
    ¬assigns name → after.scopes.held? id name = before.scopes.held? id name

namespace Extends

variable {assigns declares : String → Prop} {m m' m'' : Machine}

theorem of_scopes_eq (hcurrent : m'.current = m.current) (hscopes : m'.scopes = m.scopes) :
    m.Extends assigns declares m' where
  current := hcurrent
  next := Nat.le_of_eq (congrArg Scopes.next hscopes.symm)
  kept id _ name h := by rwa [Declares, hscopes]
  names id _ name _ h := by rwa [Declares, hscopes] at h
  values id _ name _ _ := by rw [hscopes]

theorem trans (h : m.Extends assigns declares m') (h' : m'.Extends assigns declares m'') :
    m.Extends assigns declares m'' where
  current := h'.current.trans h.current
  next := Nat.le_trans h.next h'.next
  kept id hid name hname :=
    h'.kept id (Nat.lt_of_lt_of_le hid h.next) name (h.kept id hid name hname)
  names id hid name hfree hname := by
    refine h.names id hid name hfree (h'.names id (Nat.lt_of_lt_of_le hid h.next) name ?_ hname)
    rwa [h.current]
  values id hid name hfree hname := by
    have hlater := h'.values id (Nat.lt_of_lt_of_le hid h.next) name (by rwa [h.current]) hname
    exact hlater.trans (h.values id hid name hfree hname)

/-- What declares nothing may be taken for something that does. -/
theorem mono (h : m.Extends assigns (fun _ ↦ False) m') : m.Extends assigns declares m' where
  current := h.current
  next := h.next
  kept := h.kept
  names id hid name _ := h.names id hid name fun _ ↦ not_false
  values id hid name _ := h.values id hid name fun _ ↦ not_false

/-- A name that is assigned to is declared where its value changes. -/
theorem assign {name : String} {owner : ScopeId} {old : Value} (hname : assigns name)
    (hresolve : m.scopes.resolve? m.current name = some (owner, old)) (value : Value) :
    m.Extends assigns declares { m with scopes := m.scopes.define owner name value } where
  current := rfl
  next := Nat.le_of_eq (Scopes.next_define _ _ _ _).symm
  kept id _ other h := Scopes.isSome_held?_define h value
  names id _ other _ h := by
    by_cases heq : id = owner ∧ other = name
    · obtain ⟨rfl, rfl⟩ := heq
      rw [Declares, Scopes.held?_of_search hresolve]
      rfl
    · rw [Declares] at h ⊢
      rwa [Scopes.held?_define_of_ne fun hid hother ↦ heq ⟨hid, hother⟩] at h
  values id _ other _ hother := by
    apply Scopes.held?_define_of_ne
    rintro - rfl
    exact hother hname

/-- A declaration changes what the current scope holds for one name in `declares`. -/
theorem define {name : String} (hname : declares name) (value : Value) :
    m.Extends assigns declares { m with scopes := m.scopes.define m.current name value } := by
  have hheld (id : ScopeId) (other : String) (hfree : id = m.current → ¬declares other) :
      (m.scopes.define m.current name value).held? id other = m.scopes.held? id other := by
    apply Scopes.held?_define_of_ne
    rintro hid rfl
    exact hfree hid hname
  constructor
  · rfl
  · exact Nat.le_of_eq (Scopes.next_define _ _ _ _).symm
  · exact fun id _ other h ↦ Scopes.isSome_held?_define h value
  · intro id _ other hfree h
    rwa [Declares, hheld id other hfree] at h
  · exact fun id _ other hfree _ ↦ hheld id other hfree

/-- Whatever is declared in a new scope, it is not one of those that were there before. -/
theorem scope {enclosing : Option ScopeId} {after : Machine}
    (h : { m with scopes := m.scopes.push enclosing, current := m.scopes.next }.Extends assigns
      (fun _ ↦ True) after) :
    m.Extends assigns (fun _ ↦ False) { after with current := m.current } := by
  have hold {id : ScopeId} (hid : id < m.scopes.next) : id < (m.scopes.push enclosing).next := by
    rw [Scopes.next_push]
    exact Nat.lt_succ_of_lt hid
  have hother {id : ScopeId} (hid : id < m.scopes.next) (name : String) :
      id = m.scopes.next → ¬(fun _ : String ↦ True) name :=
    fun heq ↦ absurd heq (Nat.ne_of_lt hid)
  constructor
  · rfl
  · have hnext := h.next
    rw [Scopes.next_push] at hnext
    exact Nat.le_of_succ_le hnext
  · intro id hid name hname
    refine h.kept id (hold hid) name ?_
    rwa [Declares, Scopes.held?_push]
  · intro id hid name _ hname
    have hbefore := h.names id (hold hid) name (hother hid name) hname
    rwa [Declares, Scopes.held?_push] at hbefore
  · intro id hid name _ hname
    have hvalue := h.values id (hold hid) name (hother hid name) hname
    rwa [Scopes.held?_push] at hvalue

end Extends

/-- Executions whose assignments are to names in `assigns`. -/
def assigning (assigns : String → Prop) : Conduct where
  assigns := assigns
  fault _ := True
  evaluates := Extends assigns (fun _ ↦ False)
  executes := Extends assigns
  fail _ _ := trivial
  overflow _ := trivial
  located _ _ _ := trivial
  refl _ := .of_scopes_eq rfl rfl
  trans _ _ _ h h' := h.trans h'
  executes_trans _ _ _ _ h h' := h.trans h'
  executes_of_evaluates _ _ _ h := h.mono
  assign _ _ value _ _ hname hresolve := .assign hname hresolve value
  define _ _ _ value hname := .define hname value
  makeClosure _ _ := .of_scopes_eq rfl rfl
  readClock _ := .of_scopes_eq rfl rfl
  print _ _ _ := .of_scopes_eq rfl rfl
  trace _ _ := .of_scopes_eq rfl rfl
  scope _ _ _ h := h.scope
  frame _ _ _ h := ⟨h.current, h.next, h.kept, h.names, h.values⟩

theorem expr_extends {assigns : String → Prop} {m : Machine} (hm : m.KeepsTo assigns) {e : Expr}
    (he : e.KeepsTo assigns) (settings : Settings) (steps levels : Nat) :
    m.Extends assigns (fun _ ↦ False) (final (Eval.expr settings steps levels e m)) :=
  (assigning assigns).expr_changes hm settings steps levels he

theorem stmt_extends {assigns declares : String → Prop} {m : Machine} (hm : m.KeepsTo assigns)
    {s : Stmt} (hs : s.KeepsTo assigns declares) (settings : Settings) (steps levels : Nat) :
    m.Extends assigns declares (final (Eval.stmt settings steps levels s m)) :=
  (assigning assigns).stmt_changes hm settings steps levels hs

theorem fresh_keepsTo {assigns : String → Prop} (console : Console) (readings : Nat) :
    (Machine.fresh console readings).KeepsTo assigns := by
  intro id name value hheld
  change ((Scopes.push {} none).define 0 _ _).held? id name = some value at hheld
  rw [Scopes.held?_define, Scopes.held?_push] at hheld
  split at hheld
  · cases hheld
    trivial
  · cases hheld

/-- Names do not leak out of their scope.  On every machine and however the execution ends, a scope
that was there before declares the same names after an expression has been evaluated or a block has
been executed; another statement takes no name away, and adds names to the current scope only.  And
if neither the tree nor any function on the machine assigns to a name, what such a scope holds for
it is unchanged, unless the statement itself declares the name there. -/
theorem names_stay_in_scope (settings : Settings) (steps levels : Nat) (m : Machine) :
    (∀ e, let after := final (Eval.expr settings steps levels e m)
      ∀ id < m.scopes.next, ∀ name, after.Declares id name ↔ m.Declares id name) ∧
    (∀ body, let after := final (Eval.stmt settings steps levels (.block body) m)
      ∀ id < m.scopes.next, ∀ name, after.Declares id name ↔ m.Declares id name) ∧
    (∀ s, let after := final (Eval.stmt settings steps levels s m)
      ∀ id < m.scopes.next, ∀ name, (m.Declares id name → after.Declares id name) ∧
        (after.Declares id name → m.Declares id name ∨ id = m.current)) ∧
    ∀ assigns, m.KeepsTo assigns →
      (∀ e, e.KeepsTo assigns → let after := final (Eval.expr settings steps levels e m)
        ∀ id < m.scopes.next, ∀ name, ¬assigns name →
          after.scopes.held? id name = m.scopes.held? id name) ∧
      ∀ declares s, Stmt.KeepsTo assigns declares s →
        let after := final (Eval.stmt settings steps levels s m)
        ∀ id < m.scopes.next, ∀ name, ¬assigns name → ¬(id = m.current ∧ declares name) →
          after.scopes.held? id name = m.scopes.held? id name := by
  refine ⟨fun e ↦ ?_, fun body ↦ ?_, fun s ↦ ?_, fun assigns hm ↦ ⟨fun e he ↦ ?_, ?_⟩⟩
  · have hextends := expr_extends m.keepsTo_true e.keepsTo_true settings steps levels
    intro after id hid name
    exact ⟨hextends.names id hid name fun _ ↦ not_false, hextends.kept id hid name⟩
  · have hbody : Stmt.KeepsTo (fun _ ↦ True) (fun _ ↦ False) (.block body) :=
      .block fun s _ ↦ s.keepsTo_true
    have hextends := stmt_extends m.keepsTo_true hbody settings steps levels
    intro after id hid name
    exact ⟨hextends.names id hid name fun _ ↦ not_false, hextends.kept id hid name⟩
  · have hextends := stmt_extends m.keepsTo_true s.keepsTo_true settings steps levels
    intro after id hid name
    refine ⟨hextends.kept id hid name, fun hname ↦ ?_⟩
    by_cases hcurrent : id = m.current
    · exact .inr hcurrent
    · exact .inl (hextends.names id hid name (fun heq ↦ absurd heq hcurrent) hname)
  · have hextends := expr_extends hm he settings steps levels
    intro after id hid name hname
    exact hextends.values id hid name (fun _ ↦ not_false) hname
  · intro declares s hs
    have hextends := stmt_extends hm hs settings steps levels
    intro after id hid name hname hfree
    exact hextends.values id hid name (fun heq hdeclares ↦ hfree ⟨heq, hdeclares⟩) hname

/-- A function that declares `k` for itself and assigns to `n` is called, once as it is and once to
declare `k` where the call stands. -/
theorem call_changes_assigned_name :
    let name (lexeme : String) : Token := ⟨.identifier, lexeme, .nil, 1, 0⟩
    let f : Closure := ⟨0, "f", [], [.declare (name "k") none,
      .expression (.assign (name "n") (.literal (.bool true)))], 0⟩
    let m : Machine := { Machine.fresh {} 0 with
      scopes := ((Machine.fresh {} 0).scopes.define 0 "n" (.atom .nil)).define 0 "f" (.closure f) }
    let e := Expr.call (.var (name "f")) (name ")") []
    let s := Stmt.declare (name "k") (some e)
    let called := final (Eval.expr {} 9 24 e m)
    let declared := final (Eval.stmt {} 9 24 s m)
    m.KeepsTo (· = "n") ∧ e.KeepsTo (· = "n") ∧ s.KeepsTo (· = "n") (· = "k") ∧
      called.scopes.held? 0 "n" = some (.atom (.bool true)) ∧
      (called.Declares 0 "k" ↔ m.Declares 0 "k") ∧
      called.scopes.held? 0 "f" = m.scopes.held? 0 "f" ∧
      declared.scopes.held? 0 "f" = m.scopes.held? 0 "f" := by
  intro name f m e s called declared
  have hassigned : called.scopes.held? 0 "n" = some (.atom (.bool true)) := by
    with_unfolding_all rfl
  have hf : (Value.closure f).KeepsTo (· = "n") := by
    intro s hs
    simp only [f, List.mem_cons, List.not_mem_nil, or_false] at hs
    rcases hs with rfl | rfl
    · exact .declare trivial fun _ h ↦ absurd h (Option.not_mem_none _)
    · exact .expression (.assign rfl (.literal _))
  have hm : m.KeepsTo (· = "n") := by
    have hnil : (Value.atom .nil).KeepsTo (· = "n") := trivial
    exact ((fresh_keepsTo {} 0).define hnil 0 "n").define hf 0 "f"
  have he : e.KeepsTo (· = "n") := .call _ (.var _) (List.forall_mem_nil _)
  have hs : s.KeepsTo (· = "n") (· = "k") := .declare rfl fun _ h ↦ Option.some.inj h ▸ he
  obtain ⟨hexpr, -, -, hvalues⟩ := names_stay_in_scope {} 9 24 m
  obtain ⟨hcalled, hdeclared⟩ := hvalues _ hm
  refine ⟨hm, he, hs, hassigned, hexpr e 0 (by decide) "k", ?_, ?_⟩
  · exact hcalled e he 0 (by decide) "f" (by decide)
  · exact hdeclared _ s hs 0 (by decide) "f" (by decide) (by decide)

/-- Declaring a name in a scope that declares it already changes what the scope holds, although
nothing is assigned to. -/
theorem declaration_changes_value :
    let name : Token := ⟨.identifier, "a", .nil, 1, 0⟩
    let m : Machine := { Machine.fresh {} 0 with
      scopes := (Machine.fresh {} 0).scopes.define 0 "a" (.atom (.bool false)) }
    let s := Stmt.declare name (some (.literal (.bool true)))
    let after := final (Eval.stmt {} 9 24 s m)
    m.KeepsTo (fun _ ↦ False) ∧ s.KeepsTo (fun _ ↦ False) (· = "a") ∧ 0 < m.scopes.next ∧
      m.scopes.held? 0 "a" = some (.atom (.bool false)) ∧
      after.scopes.held? 0 "a" = some (.atom (.bool true)) := by
  intro name m s after
  have hafter : after.scopes.held? 0 "a" = some (.atom (.bool true)) := by
    unfold after Eval.stmt Eval.expr
    rfl
  have hfalse : (Value.atom (.bool false)).KeepsTo (fun _ ↦ False) := trivial
  refine ⟨(fresh_keepsTo {} 0).define hfalse 0 "a", .declare rfl ?_, by decide, rfl, hafter⟩
  rintro _ ⟨⟩
  exact .literal _

end Machine

end Lox
