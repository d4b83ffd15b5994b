import Lox.Proofs.Scan.Quotation
import Lox.Proofs.Session.Rooted

/-!
# Texts are shown as they are written

A prompt shows a text between quotation marks, just as it stands.  That can be read back only if the
text has no quotation marks in it, and so it is for every text that comes up in a session: the texts
of a program are scanned, concatenation adds nothing, and what was left behind by earlier runs has
been made in the same way.
-/

namespace Lox.Session

open Stateful Lox.Parser

/-! ## Texts that come up -/

/-- The texts that come up in a session: those on its machine, and when something is run, those on
the machines that are passed and the values of the expressions that are evaluated. -/
inductive Encounters (settings : Settings) (session : Session) (s : String) : Prop
  | held {id : ScopeId} {name : String}
      (h : session.machine.scopes.held? id name = some (.atom (.text s)))
  | passed {steps : Nat} {source : String} {echo : Bool} {m : Machine} {id : ScopeId}
      {name : String} (hm : m ∈ session.runCourse settings steps source echo)
      (h : m.scopes.held? id name = some (.atom (.text s)))
  | evaluated {steps : Nat} {source : String} {echo : Bool} {moment : Moment} {n k : Nat}
      {e : Expr} {others : List Job} {m : Machine} (hexecutes : session.Executes settings source)
      (hmoment : moment ∈ (session.record settings steps source echo).moments)
      (hpath : moment.path = ⟨.expr e, n, k⟩ :: others)
      (hvalue : Eval.expr (session.traced settings) n k e moment.machine = .ok (.atom (.text s)) m)

/-! ## Unquoted machines -/

theorem treesOf_textsIn {levels : Nat} {source : String} (h : Faultless levels source) :
    ∀ s ∈ treesOf levels source, Stmt.TextsIn Unquoted s :=
  h.program.textsIn (scan_supplies _)

section

variable {session : Session} (h : session.machine.TextsIn Unquoted) (settings : Settings)
  (steps : Nat) (source : String) (echo : Bool)
include h

theorem readied_textsIn : (session.readied settings source).machine.TextsIn Unquoted := by
  rw [(session.readied_watched settings source).machine]
  exact h

/-- The record of an execution has no quoted texts. -/
theorem record_textsIn (hexecutes : session.Executes settings source) :
    (session.record settings steps source echo).TextsIn Unquoted :=
  Course.program_textsIn (fun _ _ ↦ Unquoted.append) (session.traced settings) steps echo
    (treesOf_textsIn hexecutes.faultless) (readied_textsIn h settings source)

theorem runCourse_textsIn :
    ∀ m ∈ session.runCourse settings steps source echo, m.TextsIn Unquoted := by
  unfold runCourse
  split
  · rename_i hexecutes
    intro m hm
    obtain ⟨moment, hmoment, rfl⟩ := List.mem_map.mp (List.mem_reverse.mp hm)
    exact ((record_textsIn h settings steps source echo hexecutes).moments moment hmoment).machine
  · exact List.forall_mem_nil _

theorem run_textsIn : (session.run settings steps source echo).2.machine.TextsIn Unquoted := by
  apply run_elim fun result ↦ result.2.machine.TextsIn Unquoted
  · intro _
    rw [(session.scanned_watched _).machine]
    exact h
  · exact fun _ ↦ readied_textsIn h settings source
  · exact fun _ _ ↦ readied_textsIn h settings source
  · intro hexecutes
    have hend := (record_textsIn h settings steps source echo hexecutes).now.machine
    rw [record, ← Course.final_ended, Coupling.program_ended] at hend
    rw [(concluded_watched _ _).machine]
    exact hend

end

theorem takeAll_textsIn (settings : Settings) {session : Session}
    (h : session.machine.TextsIn Unquoted) (history : List Step) :
    (session.takeAll settings history).machine.TextsIn Unquoted := by
  induction history generalizing session with
  | nil => exact h
  | cons step history ih =>
    apply ih
    cases step with
    | run steps source echo => exact run_textsIn h settings steps source echo
    | setFlags flags => exact h
    | restart => exact h.renewed

theorem Encounters.unquoted {settings : Settings} {session : Session}
    (h : session.machine.TextsIn Unquoted) {s : String} (hs : session.Encounters settings s) :
    Unquoted s := by
  cases hs with
  | held hheld => exact h _ _ _ hheld
  | passed hm hheld => exact runCourse_textsIn h settings _ _ _ _ hm _ _ _ hheld
  | @evaluated steps source echo moment n k e others m hexecutes hmoment hpath hvalue =>
    have hrecord := record_textsIn h settings steps source echo hexecutes
    exact Course.value_textsIn (fun _ _ ↦ Unquoted.append) (session.traced settings)
      (hrecord.moments moment hmoment) hpath hvalue

/-- A prompt shows texts as they are written.  Whatever was done in a session, no text that comes up
in it has a quotation mark.  So what is shown of it, with a semicolon behind it, is scanned without
faults as the same text and a semicolon, and parsed as an expression that evaluates to the text. -/
theorem shown_text_reads_back (settings : Settings) (flags : Flags) (echoErrors coloured : Bool)
    (history : List Step) {s : String}
    (h : ((Session.new flags echoErrors coloured).takeAll settings history).Encounters
      settings s) :
    '"' ∉ s.toList ∧
    scan (Value.source (.atom (.text s)) ++ ";") =
      ⟨[⟨.string, "\"" ++ s ++ "\"", .text s, 1, 0⟩,
        ⟨.semicolon, ";", .nil, 1 + s.toList.count '\n', s.length + 2⟩,
        ⟨.eof, "", .nil, 1 + s.toList.count '\n', s.length + 3⟩], []⟩ ∧
    (∀ levels, 6 ≤ levels →
      parse levels (scan (Value.source (.atom (.text s)) ++ ";")).tokens =
        ⟨[.expression (.literal (.text s))], [], none⟩) ∧
    ∀ settings steps levels (m : Machine), 1 ≤ steps → 3 ≤ levels →
      Eval.expr settings steps levels (.literal (.text s)) m = .ok (.atom (.text s)) m := by
  have hnew : (Session.new flags echoErrors coloured).machine.TextsIn Unquoted :=
    Machine.fresh_textsIn Unquoted _ _
  have hs : Unquoted s := h.unquoted (takeAll_textsIn settings hnew history)
  refine ⟨hs, scan_quotation hs, ?_, ?_⟩
  · intro levels hlevels
    obtain ⟨levels, rfl⟩ := Nat.exists_eq_add_of_le' hlevels
    rw [scan_quotation hs]
    rfl
  · intro settings steps levels m hsteps hlevels
    obtain ⟨steps, rfl⟩ := Nat.exists_eq_add_of_le' hsteps
    obtain ⟨levels, rfl⟩ := Nat.exists_eq_add_of_le' hlevels
    rw [Eval.expr]
    rfl

/-- While a call is in progress, a local holds what was put together from a text of an earlier run
and one of this run. -/
theorem joined_local_reads_back :
    let settings : Settings := { levels := 60 }
    let session := (Session.new [] false false).takeAll settings
      [.run 40 "var a = \"x\";" false, .setFlags [.trace]]
    let source := "fun f(b) \x7b var c = a + b; print c; \x7d f(\"\n'\");"
    let s := "x\n'"
    (∃ m ∈ session.runCourse settings 40 source true,
      m.scopes.held? 1 "c" = some (.atom (.text s))) ∧
    '"' ∉ s.toList ∧
    (scan (Value.source (.atom (.text s)) ++ ";")).errors = [] ∧
    parse 6 (scan (Value.source (.atom (.text s)) ++ ";")).tokens =
      ⟨[.expression (.literal (.text s))], [], none⟩ := by
  intro settings session source s
  have hcourse : ((session.runCourse settings 40 source true).any fun m ↦
      (m.scopes.held? 1 "c").any (·.isText s)) = true := by
    decide +kernel
  obtain ⟨m, hm, hany⟩ := List.any_eq_true.mp hcourse
  obtain ⟨value, hvalue, htext⟩ := (Option.any_eq_true _ _).mp hany
  have hheld : m.scopes.held? 1 "c" = some (.atom (.text s)) := by
    rw [hvalue, Value.eq_of_isText htext]
  have hresult := shown_text_reads_back settings [] false false _ (.passed hm hheld)
  refine ⟨⟨m, hm, hheld⟩, hresult.1, ?_, hresult.2.2.1 6 (Nat.le_refl 6)⟩
  rw [hresult.2.1]

end Lox.Session
