import Lox.Proofs.Machine.Rooted
import Lox.Proofs.Session.Verdict

/-!
# The scopes of a session

A session is followed through everything that is asked of it, machine by machine: between two
requests and at every point of an execution.  On each of these machines the way outward from every
scope that can still be got at ends at the globals, and from one machine to a later one no scope
moves.  The globals are replaced when everything is forgotten, and then all that was declared before
is out of reach.
-/

namespace Lox

open Stateful Lox.Parser

namespace Session

/-! ## Courses of sessions -/

def record (settings : Settings) (steps : Nat) (source : String) (echo : Bool) (session : Session) :
    Record :=
  final (Course.program (session.traced settings) steps echo (treesOf settings.levels source)
    (.start (session.readied settings source).machine))

/-- The machines passed while a text is run. -/
def runCourse (settings : Settings) (steps : Nat) (source : String) (echo : Bool)
    (session : Session) : List Machine :=
  if session.Executes settings source then
    (session.record settings steps source echo).passed.reverse
  else []

def callCourse (settings : Settings) (steps : Nat) (name : String) (arguments : List Value)
    (session : Session) : List Machine :=
  (final (Course.applied (session.traced settings) steps
    { kind := .identifier, lexeme := name, line := 1 } arguments
    (.start session.machine))).passed.reverse

/-- The machines passed while a session responds to a request. -/
def requestCourse (settings : Settings) (session : Session) : Request → List Machine
  | .step (.run steps source echo) => session.runCourse settings steps source echo
  | .call steps name arguments => session.callCourse settings steps name arguments
  | _ => []

/-- All machines of a session that is asked one thing after the other, the earliest first. -/
def course (settings : Settings) (session : Session) : List Request → List Machine
  | [] => [session.machine]
  | request :: requests =>
    session.machine :: (session.requestCourse settings request ++
      (session.respond settings request).2.course settings requests)

/-- Functions that are handed to a global lie in scopes that the session can get at. -/
def Admits (settings : Settings) (session : Session) : List Request → Prop
  | [] => True
  | request :: requests =>
    (∀ steps name arguments, request = .call steps name arguments →
      ∀ f, .closure f ∈ arguments → session.machine.Live f.scope) ∧
    (session.respond settings request).2.Admits settings requests

/-! ## What is passed -/

section

variable {session : Session} (h : session.machine.Rooted)
include h

/-- A run passes rooted machines only. -/
theorem run_passes (settings : Settings) (steps : Nat) (source : String) (echo : Bool) :
    session.machine.Passes (session.runCourse settings steps source echo)
      (session.run settings steps source echo).2.machine := by
  have hkept {after : Session} (hwatched : session.Watched after) :
      after.machine.Rooted ∧ after.machine.scopes = session.machine.scopes := by
    rw [hwatched.machine]
    exact ⟨h.withConsole _, rfl⟩
  have hunchanged {after : Session} (hwatched : session.Watched after) :
      session.machine.Passes [] after.machine := by
    apply Machine.passes_nil
    · rw [(hkept hwatched).2]
      exact .refl _
    · exact (hkept hwatched).1
  have hreadied := session.readied_watched settings source
  by_cases hexecutes : session.Executes settings source
  · obtain ⟨hrooted, hscopes⟩ := hkept hreadied
    have hmachine := (concluded_watched (session.readied settings source).reporter
      (Eval.program (session.traced settings) steps echo (treesOf settings.levels source)
        (session.readied settings source).machine)).machine
    have hpasses := hrooted.program_passes (session.traced settings) steps echo
      (treesOf settings.levels source)
    rw [runCourse, if_pos hexecutes, run_executed settings steps source echo hexecutes, hmachine]
    exact (hpasses.from hscopes).of_scopes_eq rfl (hpasses.after.idle.withConsole _)
  · rw [runCourse, if_neg hexecutes]
    apply run_elim fun result ↦ session.machine.Passes [] result.2.machine
    · exact fun _ ↦ hunchanged (session.scanned_watched _)
    · exact fun _ ↦ hunchanged hreadied
    · exact fun _ _ ↦ hunchanged hreadied
    · exact fun h ↦ absurd h hexecutes

theorem call_passes (settings : Settings) (steps : Nat) (name : String) {arguments : List Value}
    (harguments : ∀ f, .closure f ∈ arguments → session.machine.Live f.scope) :
    session.machine.Passes (session.callCourse settings steps name arguments)
      (session.callGlobal settings steps name arguments).2.machine := by
  have hpasses := h.applied_passes (session.traced settings) steps
    { kind := .identifier, lexeme := name, line := 1 } harguments
  have hmachine : (session.callGlobal settings steps name arguments).2.machine =
      final ((Eval.lookup { kind := .identifier, lexeme := name, line := 1 } >>= fun f ↦
        Eval.apply (session.traced settings) steps settings.levels f arguments)
          session.machine) := by
    unfold callGlobal
    dsimp only
    split
    · rename_i heq
      exact (congrArg final heq).symm
    · rename_i heq
      exact (congrArg final heq).symm
  rw [hmachine]
  exact hpasses

/-- Responding to a request passes rooted machines only. -/
theorem respond_passes (settings : Settings) {request : Request}
    (hadmits : ∀ steps name arguments, request = .call steps name arguments →
      ∀ f, .closure f ∈ arguments → session.machine.Live f.scope) :
    session.machine.Passes (session.requestCourse settings request)
      (session.respond settings request).2.machine := by
  cases request with
  | step step =>
    cases step with
    | run steps source echo => exact run_passes h settings steps source echo
    | setFlags flags => exact Machine.passes_nil (.refl _) h
    | restart =>
      exact Machine.passes_nil session.machine.grows_renewed
        (Machine.renewed_rooted h.scopes.nested)
  | globals => exact Machine.passes_nil (.refl _) h
  | call steps name arguments =>
    exact call_passes h settings steps name (hadmits steps name arguments rfl)

end

/-- Along the course of a session all machines are rooted, and scopes stay where they are. -/
theorem course_passes (settings : Settings) {session : Session} (h : session.machine.Rooted)
    {requests : List Request} (hadmits : session.Admits settings requests) :
    (∀ m ∈ session.course settings requests, m.Rooted ∧ session.machine.scopes.Grows m.scopes) ∧
      (session.course settings requests).Pairwise fun earlier later ↦
        earlier.scopes.Grows later.scopes := by
  induction requests generalizing session with
  | nil =>
    refine ⟨?_, List.pairwise_singleton _ _⟩
    intro m hm
    rw [List.mem_singleton.mp hm]
    exact ⟨h, .refl _⟩
  | cons request requests ih =>
    have hpasses := respond_passes h settings hadmits.1
    obtain ⟨hlater, hordered⟩ := ih hpasses.after hadmits.2
    have hrest : ∀ m ∈ session.requestCourse settings request ++
        (session.respond settings request).2.course settings requests,
        m.Rooted ∧ session.machine.scopes.Grows m.scopes := by
      intro m hm
      rcases List.mem_append.mp hm with hm | hm
      · exact ⟨hpasses.rooted m hm, hpasses.since m hm⟩
      · exact ⟨(hlater m hm).1, hpasses.grows.trans (hlater m hm).2⟩
    refine ⟨List.forall_mem_cons.mpr ⟨⟨h, .refl _⟩, hrest⟩, ?_⟩
    refine List.pairwise_cons.mpr ⟨fun m hm ↦ (hrest m hm).2, ?_⟩
    refine List.pairwise_append.mpr ⟨hpasses.ordered, hordered, ?_⟩
    intro earlier hearlier later hafter
    exact (hpasses.upto earlier hearlier).trans (hlater later hafter).2

/-- The way outward ends at the globals.  In every session and at every point of it, between
requests and during executions, the way outward from each scope that can be got at ends at the
globals after finitely many scopes, none of them twice; a scope is never moved; hence a search along
the way comes to an end, and a global is seen from every such scope unless it is shadowed.  The
machines passed are those of the actual executions, which end in the last of them. -/
theorem scopes_lead_to_globals (settings : Settings) (flags : Flags) (echoErrors coloured : Bool)
    (requests : List Request)
    (hadmits : (Session.new flags echoErrors coloured).Admits settings requests) :
    let course := (Session.new flags echoErrors coloured).course settings requests
    (∀ m ∈ course, ∀ id, m.Live id → ∃ path, m.Sees id path) ∧
    (course.Pairwise fun earlier later ↦ earlier.scopes.Grows later.scopes) ∧
    (∀ steps echo statements m,
      Course.ended (Course.program settings steps echo statements (.start m)) =
        Eval.program settings steps echo statements m) ∧
    ∀ steps name arguments m,
      Course.ended (Course.applied settings steps name arguments (.start m)) =
        (Eval.lookup name >>= fun f ↦ Eval.apply settings steps settings.levels f arguments) m := by
  intro course
  have hnew : (Session.new flags echoErrors coloured).machine.Rooted := Machine.fresh_rooted _ _
  obtain ⟨hrooted, hordered⟩ := course_passes settings hnew hadmits
  refine ⟨?_, hordered, Coupling.program_ended settings, Coupling.applied_ended settings⟩
  intro m hm id hlive
  exact (hrooted m hm).1.sees hlive

/-- A function with a block in it is called directly; then everything is forgotten and a block is
run with trace. -/
theorem called_block_leads_to_globals :
    let settings : Settings := { levels := 30 }
    let session := Session.new [] true false
    let requests : List Request :=
      [.step (.run 20 "fun f(a) \x7b\x7b print a; \x7d\x7d" false),
        .call 20 "f" [.atom (.bool true)], .step .restart, .step (.setFlags [.trace]),
        .step (.run 20 "\x7b var b; \x7d" true)]
    let course := session.course settings requests
    session.Admits settings requests ∧
      (course.any fun m ↦ m.scopes.chain m.current == [2, 1, 0]) = true ∧
      (course.any fun m ↦ m.scopes.chain m.current == [4, 3]) = true ∧
      (∀ m ∈ course, ∀ id, m.Live id → ∃ path, m.Sees id path) ∧
      course.Pairwise fun earlier later ↦ earlier.scopes.Grows later.scopes := by
  intro settings session requests course
  have hcalled : (course.any fun m ↦ m.scopes.chain m.current == [2, 1, 0]) = true := by
    decide +kernel
  have hrun : (course.any fun m ↦ m.scopes.chain m.current == [4, 3]) = true := by
    decide +kernel
  have hadmits : session.Admits settings requests := by
    refine ⟨nofun, ?_, nofun, nofun, nofun, trivial⟩
    intro steps name arguments hrequest f hf
    cases hrequest
    simp at hf
  have hresult := scopes_lead_to_globals settings [] true false requests hadmits
  exact ⟨hadmits, hcalled, hrun, hresult.1, hresult.2.1⟩

end Session

end Lox
